import FontManager.Interaction.Refinement
import FontManager.Sequential.BookRefinement

open FontDefine FontManagerUtils FontLocation Interaction Text

namespace FontBook

structure Ledger where
  book : List Font
  events : List FontEvent

def ledger (u limit : Int) : Ideal FontCall FontErrorCode Ledger where
  admits l c := Fits l.book c
  reply l c := (step u limit l.book c).code
  next l c := ⟨(step u limit l.book c).book, l.events ++ (step u limit l.book c).events⟩

def Kept (u limit : Int) (l : Ledger) (w : World) : Prop :=
  Tidy l.book ∧ Displays u limit l.book l.events w

theorem refinement (u limit : Int) :
    Refinement (FontCall.service u) Faultless (ledger u limit) (Kept u limit) where
  fault := ⟨rfl, rfl, rfl⟩
  call := by
    intro l w c h hfit
    apply (call_whole h.1 h.2 hfit).mono
    rintro code w' ⟨hcode, hdisplays⟩
    exact ⟨hcode, tidy_step h.1 hfit, hdisplays⟩

theorem calls_keep_book {u limit : Int} {book : List Font} {events : List FontEvent} {w : World}
    (es : List (FontCall × List Io)) (htidy : Tidy book) (h : Displays u limit book events w)
    (hfit : (ledger u limit).Admitted ⟨book, events⟩ (es.map Prod.fst))
    (hios : ∀ e ∈ es, ∀ io ∈ e.2, Faultless io) :
    (FontCall.service u).replies w es = (ledger u limit).replies ⟨book, events⟩ (es.map Prod.fst) ∧
      Kept u limit ((ledger u limit).after ⟨book, events⟩ (es.map Prod.fst))
        ((FontCall.service u).after w es) :=
  (refinement u limit).sequence ⟨htidy, h⟩ hfit hios

def stocked (u : Int) (l : Loc) : Option Entry :=
  if userDir u = l then some .dir else if userDir u ++ [tempDir] = l then some .dir
  else if configLoc u = l then some (.document emptyConfig) else none

theorem lookup_provisioned (userIds : List Int) {u : Int} {l : Loc} (hl : userDir u <+: l) :
    (World.provisioned userIds).tree.lookup l = if u ∈ userIds then stocked u l else none := by
  induction userIds with
  | nil => rfl
  | cons v rest ih =>
    have hcons : (World.provisioned (v :: rest)).tree.lookup l =
        if userDir v = l then some .dir else if userDir v ++ [tempDir] = l then some .dir
        else if configLoc v = l then some (.document emptyConfig)
        else (World.provisioned rest).tree.lookup l := by
      simp only [World.provisioned, List.flatMap_cons, List.cons_append, List.nil_append,
        FileTree.lookup_cons]
    rw [hcons, ih]
    by_cases hvu : v = u
    · subst hvu
      rw [if_pos List.mem_cons_self, stocked]
      split_ifs <;> rfl
    · have hne : ∀ {a : Loc}, userDir v ++ a ≠ l := fun heq =>
        hvu (userDir_unique (heq ▸ List.prefix_append _ _) hl)
      have hmem : u ∈ v :: rest ↔ u ∈ rest := by simp [Ne.symm hvu]
      rw [if_neg hne, configLoc, if_neg hne, if_congr hmem rfl rfl]
      rw [← List.append_nil (userDir v), if_neg hne]

theorem displays_provisioned {userIds : List Int} {u : Int} (hu : u ∈ userIds) :
    Displays u defaultMaxInstallNum [] [] (.provisioned userIds) := by
  have htree : ∀ {l}, userDir u <+: l →
      (World.provisioned userIds).tree.lookup l = stocked u l := fun hl => by
    rw [lookup_provisioned userIds hl, if_pos hu]
  have hconfig : (World.provisioned userIds).config u = some emptyConfig := by
    rw [World.config_eq_match, htree (configLoc_below u), stocked, if_neg Folder.user.ne_config,
      if_neg Folder.userTemp.ne_config, if_pos rfl]
  refine ⟨StoreInvariant.shows_empty hconfig, by simp [contents], by simp [contents], ?_, ?_, rfl,
    rfl⟩
  · intro l e hl hlook
    rw [htree hl, stocked] at hlook
    split_ifs at hlook with huser htemp hdoc
    · obtain rfl := Option.some.inj hlook
      exact huser ▸ .user
    · obtain rfl := Option.some.inj hlook
      exact htemp ▸ .userTemp
    · obtain rfl := Option.some.inj hlook
      exact hdoc.symm
  · rw [isDir_iff, htree List.prefix_rfl, stocked, if_pos rfl]

section day

instance (book : List Font) (c : FontCall) : Decidable (Fits book c) :=
  decidable_of_iff (StoreInvariant.NamesNulFree c ∧ (∀ s ∈ c.url, s ≠ [] ∧ NulFree s) ∧
      (∀ fd ∈ c.source, '\\' ∉ getFileName (getFilePathByFd fd)) ∧
      ∀ path ∈ c.target, ∀ f ∈ book, f.slot.sandbox ≠ path)
    ⟨fun h => ⟨h.1, h.2.1, h.2.2.1, h.2.2.2⟩, fun h => ⟨h.names, h.urls, h.bare, h.fresh⟩⟩

instance (u limit : Int) (l : Ledger) (c : FontCall) : Decidable ((ledger u limit).admits l c) :=
  inferInstanceAs (Decidable (Fits l.book c))

def day : List FontCall :=
  [.installFont (Sample.noon 0) (Sample.sourceFont "A".toList 1),
    .installScopeFont (Sample.noon 1) (Sample.sourceFont "B".toList 2) fontScopeApp "/b.ttf".toList "bundle".toList 5,
    .installFont (Sample.noon 2) (Sample.sourceFont "B".toList 3),
    .uninstallScopeFont "/b.ttf".toList "other".toList 6,
    .cleanupAppScopeFonts fontScopeApp 5,
    .installFont (Sample.noon 3) (Sample.sourceFont "B".toList 4),
    .uninstallFont "A".toList]

theorem day_keeps_book :
    (FontCall.service 100).replies (.provisioned [100]) (day.map fun c => (c, [])) =
        [.ok, .ok, .installedAlrady, .scopeFontNotFound, .ok, .ok, .ok] ∧
      Kept 100 defaultMaxInstallNum
        ((ledger 100 defaultMaxInstallNum).after ⟨[], []⟩ day)
        ((FontCall.service 100).after (.provisioned [100]) (day.map fun c => (c, []))) := by
  have hcalls : (day.map fun c => (c, ([] : List Io))).map Prod.fst = day := rfl
  have hkept := calls_keep_book (day.map fun c => (c, [])) .nil (displays_provisioned (List.mem_singleton_self 100))
    (by rw [hcalls]; decide) (by simp)
  rw [hcalls] at hkept
  exact ⟨hkept.1.trans rfl, hkept.2⟩

end day

end FontBook
