import FontManager.Concurrent.UserIsolation
import FontManager.Sequential.BookRuns
import FontManager.Sequential.FontLibrary

open FontDefine FontManagerUtils FontLocation FontBook UserIsolation Interaction

namespace FontBook

theorem Shelf.elsewhere {v limit : Int} {rs : List Record} {files : List (Slot × List UInt8)}
    {events : List FontEvent} {w w' : World} (h : Shelf v limit rs files events w)
    (htree : ∀ l, userDir v <+: l → w'.tree.lookup l = w.tree.lookup l)
    (hlimit : w'.maxInstallNum = w.maxInstallNum) :
    Shelf v limit rs files w'.published w' where
  view := (World.config_congr (htree _ (configLoc_below v))).trans h.view
  valid := h.valid
  stored x hx := (htree _ (List.prefix_append _ _)).trans (h.stored x hx)
  arranged l e hl hlook := h.arranged l e hl (htree l hl ▸ hlook)
  root := isDir_iff.mpr (by rw [htree _ List.prefix_rfl, isDir_iff.mp h.root])
  published := rfl
  limit := hlimit ▸ h.limit

end FontBook

namespace FontLibrary

structure Kept (lib : FontLibrary) (w : World) : Prop where
  users : w.createdUserIds = lib.userIds
  registry : w.registry = lib.registry
  inside : ∀ u, ∀ key ∈ listedKeys (w.config u), KeyInside u key
  tidy : lib.Tidy
  displays : ∀ u ∈ lib.userIds, Displays u lib.limit (lib.books u) w.published w
  published : w.published = lib.events

def homeOf (r : FontClientRegistry) (tokenId : Int) : Int := ((r.info tokenId).map (·.userId)).getD 0

variable {lib : FontLibrary} {w : World} {u : Int}

theorem Kept.homed (h : Kept lib w) : Homed (homeOf lib.registry) w := by
  refine ⟨h.inside, ?_⟩
  intro t info hinfo
  rw [h.registry] at hinfo
  refine ⟨?_, (h.tidy.clients t info hinfo).identifier⟩
  rw [homeOf, hinfo]
  rfl

theorem confined_call (home : Int → Int) (u : Int) (c : FontCall) :
    Confined home u (fun _ => True) (c.program u) := by
  cases c with
  | installFont env fd => exact Confined.installFont env fd u
  | uninstallFont name => exact Confined.uninstallFont name u
  | installScopeFont env fd scope srcPath bundleName tokenId =>
    exact Confined.installScopeFont env (FontCall.info u fd scope srcPath bundleName tokenId) rfl
  | uninstallScopeFont srcPath bundleName tokenId =>
    exact Confined.uninstallScopeFont srcPath bundleName tokenId u
  | cleanupAppScopeFonts scope tokenId => exact Confined.cleanupAppScopeFonts scope tokenId u
  | cleanupScopeFontsByUser => exact Confined.cleanupScopeFontsByUser u
  | cleanupAppScopeFontsByUser => exact Confined.cleanupAppScopeFontsByUser u

theorem call_outside (u : Int) (c : FontCall) :
    Program.always (P := sig) (fun _ _ => True) outside (c.program u) :=
  (outside_permits u).call (fun _ => trivial) (fun _ _ _ _ _ => trivial) (fun _ _ => trivial) c

theorem call_kept (h : Kept lib w) (hu : u ∈ lib.userIds) {c : FontCall}
    (hfit : Fits (lib.books u) c) :
    Ensures (each Faultless) (c.program u) (fun code w' =>
      code = (FontBook.step u lib.limit (lib.books u) c).code ∧
        Kept (lib.record u (FontBook.step u lib.limit (lib.books u) c)) w') w := by
  have hstill : Ensures (each Faultless) (c.program u)
      (fun _ w' => w'.registry = w.registry ∧ w'.createdUserIds = w.createdUserIds) w := by
    apply Program.wp_of_always _ (call_outside u c) ⟨rfl, rfl⟩
    intro v o io ho hv
    exact ⟨(registry_of_outside ho io).trans hv.1, (World.exec_createdUserIds v o io).trans hv.2⟩
  have hapart := (users (homeOf lib.registry)).wp_apart (each Faultless)
    (fun k w => .refl _ k w) (confined_call _ u c).always h.homed
  have hown := call_whole (h.tidy.books u hu) (h.displays u hu) hfit
  apply ((hown.and hapart).and hstill).mono
  rintro code w' ⟨⟨⟨hcode, hshelf⟩, hhomed, hothers⟩, hregistry, husers⟩
  refine ⟨hcode, ?_⟩
  constructor
  · exact husers.trans h.users
  · exact hregistry.trans h.registry
  · exact hhomed.paths
  · exact h.tidy.record (tidy_step (h.tidy.books u hu) hfit)
  · intro v hv
    by_cases hvu : v = u
    · subst hvu
      rw [books_self, hshelf.published]
      exact hshelf
    · rw [books_other hvu]
      have hsame := hothers v hvu
      exact (h.displays v hv).elsewhere
        (fun l hl => hsame.tree l ((hall_below_userDir v).trans hl)) hsame.maxInstallNum
  · rw [hshelf.published, h.published]
    rfl

section sweeping

def Spare (d : Str) (book : List Font) : Prop := ∀ f ∈ book, ¬ [d] <+: f.slot.sub

theorem Kept.prune (h : Kept lib w) {d : Str} (hd : d ≠ fontConfigFile)
    (hspare : u ∈ lib.userIds → Spare d (lib.books u)) :
    Kept lib { w with tree := w.tree.prune (userDir u ++ [d]) } := by
  have hconfig : ∀ v, ¬ userDir u ++ [d] <+: configLoc v := by
    intro v hp
    obtain rfl := userDir_leads hp
    exact userDir_noPrefix_configLoc hd hp
  refine ⟨h.users, h.registry, ?_, h.tidy, ?_, h.published⟩
  · intro v key hkey
    rw [World.config_congr (FileTree.lookup_prune_of_not_under (hconfig v))] at hkey
    exact h.inside v key hkey
  · intro v hv
    apply (h.displays v hv).prune (hconfig v)
    · intro hp
      obtain rfl := userDir_leads (b := []) ((List.append_nil (userDir v)).symm ▸ hp)
      have hlen := hp.length_le
      simp only [List.length_append, List.length_cons, List.length_nil] at hlen
      omega
    · intro x
      apply Iff.symm
      apply and_iff_left_of_imp
      intro hx hp
      obtain ⟨f, hf, rfl⟩ := List.mem_map.mp hx
      obtain rfl := userDir_leads hp
      exact hspare hv f hf ((List.prefix_append_right_inj _).mp hp)

theorem spare_tempDir {book : List Font} (h : FontBook.Tidy book) : Spare tempDir book := by
  intro f hf hp
  have hvalid := (h.placed f hf).valid
  obtain ⟨⟨dir, name⟩, record, content⟩ := f
  cases dir with
  | none =>
    have hname := (List.cons_prefix_cons.mp hp).1
    exact tempDir_ne_name hvalid.tagged hname.symm
  | some id =>
    obtain ⟨scope, t, rfl⟩ := hvalid.owned id rfl
    have hname := (List.cons_prefix_cons.mp hp).1
    exact tempDir_ne_app scope t hname.symm

theorem spare_app {book : List Font} (h : FontBook.Tidy book) {scope t : Int}
    (hnone : ∀ f ∈ book, f.slot.dir ≠ some (makeAppIdentifier scope t)) :
    Spare (makeAppIdentifier scope t) book := by
  intro f hf hp
  have hvalid := (h.placed f hf).valid
  have hother := hnone f hf
  obtain ⟨⟨dir, name⟩, record, content⟩ := f
  cases dir with
  | none =>
    have hname := (List.cons_prefix_cons.mp hp).1
    exact makeAppIdentifier_ne hvalid.tagged scope t hname.symm
  | some id =>
    have hname := (List.cons_prefix_cons.mp hp).1
    exact hother (congrArg some hname.symm)

theorem Kept.deleteDir (h : Kept lib w) {d : Str} {path : Str} (hpath : path ≠ [])
    (hloc : locate path = userDir u ++ [d]) (hd : d ≠ fontConfigFile)
    (hspare : u ∈ lib.userIds → Spare d (lib.books u)) :
    Ensures (each Faultless) (FontManagerUtils.deleteDir path) (fun _ w' => Kept lib w') w := by
  apply ScopeCleanup.deleteDir_exact undisturbed_of_faultless hpath
  · intro _
    exact h
  · intro _
    rw [hloc]
    exact h.prune hd hspare

theorem Kept.clearAllTempFileDir (h : Kept lib w) (userIds : List Int) :
    Ensures (each Faultless) (FontManagerUtils.clearAllTempFileDir userIds) (fun _ w' => Kept lib w') w := by
  induction userIds generalizing w with
  | nil => exact h
  | cons u rest ih =>
    have hpath : installPath u ++ tempFile = dirPath (userDir u ++ [tempDir]) := by
      rw [installPath_eq, Base.temp]
    have hloc : locate (installPath u ++ tempFile) = userDir u ++ [tempDir] := by
      rw [hpath, locate_dirPath (Base.user u).extend_temp.plain]
    apply Ensures.bind
    apply Ensures.checkPathExist
    intro b
    cases b with
    | false => exact ih h
    | true =>
      apply Ensures.bind
      apply (h.deleteDir (by simp [hpath, dirPath]) hloc (by decide) fun hu =>
        spare_tempDir (h.tidy.books u hu)).mono
      intro _ w₁ h₁
      exact ih h₁

theorem isScopeDir_head {d : Str} (h : isScopeDir d = true) : ∃ c ∈ d.head?, c = 'a' ∨ c = 's' := by
  have hhead : ∀ {prefixed : Str} {c : Char}, (c :: prefixed).isPrefixOf d = true → d.head? = some c := by
    intro prefixed c hp
    obtain ⟨rest, rfl⟩ := List.isPrefixOf_iff_prefix.mp hp
    rfl
  rcases Bool.or_eq_true_iff.mp h with happ | hsession
  · exact ⟨'a', hhead happ, Or.inl rfl⟩
  · exact ⟨'s', hhead hsession, Or.inr rfl⟩

theorem listed_app (h : Kept lib w) (hu : u ∈ lib.userIds) {d : Str}
    (hmem : d ∈ w.directories (installPath u)) (hscope : isScopeDir d = true) :
    ∃ scope t, d = makeAppIdentifier scope t := by
  obtain ⟨⟨d', e⟩, hchild, hdir⟩ := List.mem_filterMap.mp hmem
  have hlisted := FileTree.isSome_lookup_of_mem (FileTree.mem_of_children hchild)
  obtain ⟨e', hlook⟩ := Option.isSome_iff_exists.mp hlisted
  have hname : d' = d := by
    cases e with
    | dir => exact Option.some.inj hdir
    | _ => cases hdir
  rw [hname, installPath_eq, locate_dirPath (userDir_plain u)] at hlook
  have harranged := (h.displays u hu).arranged _ e' (List.prefix_append _ _) hlook
  cases e' with
  | dir =>
    generalize hl : userDir u ++ [d] = l at harranged
    cases harranged with
    | user => simp at hl
    | userTemp =>
      obtain rfl := List.singleton_inj.mp (List.append_cancel_left hl)
      cases hscope
    | app scope t => exact ⟨scope, t, List.singleton_inj.mp (List.append_cancel_left hl)⟩
    | appTemp scope t => simp at hl
  | bytes content =>
    obtain ⟨x, hx, hloc⟩ := harranged
    obtain ⟨c, hc, hd⟩ := isScopeDir_head hscope
    have hhead : c ≠ '_' ∧ c.isDigit = false := by
      rcases hd with rfl | rfl <;> decide
    have hne := ((h.displays u hu).valid x hx).tagged.head_ne hc hhead.1 hhead.2
    have hsub : x.1.dir.toList ++ [x.1.name] = [] ++ [d] := List.append_cancel_left hloc
    exact absurd (List.singleton_inj.mp (List.append_inj' hsub rfl).2) hne
  | document json =>
    obtain rfl := List.singleton_inj.mp (List.append_cancel_left harranged)
    cases hscope

theorem Kept.deleteDirs (h : Kept lib w) {names : List Str}
    (hnames : ∀ d ∈ names, ∃ scope t, d = makeAppIdentifier scope t ∧
      ∀ f ∈ lib.books u, f.slot.dir ≠ some d) :
    Ensures (each Faultless) (FontManagerUtils.deleteDirs (names.map (installPath u ++ ·)))
      (fun _ w' => Kept lib w') w := by
  induction names generalizing w with
  | nil => exact h
  | cons d rest ih =>
    obtain ⟨scope, t, rfl, hnone⟩ := hnames d List.mem_cons_self
    have hplain := makeAppIdentifier_plain scope t
    have hloc : locate (installPath u ++ makeAppIdentifier scope t) =
        userDir u ++ [makeAppIdentifier scope t] := by
      rw [installPath_eq, locate_name (userDir_plain u) hplain]
    apply Ensures.bind
    apply (h.deleteDir (by simp [hplain.nonempty]) hloc (fontConfigFile_ne_app scope t) fun hu =>
      spare_app (h.tidy.books u hu) hnone).mono
    intro _ w₁ h₁
    exact ih h₁ fun d' hd' => hnames d' (List.mem_cons_of_mem _ hd')

theorem Kept.cleanupDirs (h : Kept lib w) {selected : Str → Bool}
    (hselected : ∀ d, selected d = true → isScopeDir d = true)
    (hclear : ∀ u ∈ lib.userIds, ∀ f ∈ lib.books u, ∀ d ∈ f.slot.dir, selected d = false)
    {userIds : List Int} (hids : ∀ u ∈ userIds, u ∈ lib.userIds) :
    Ensures (each Faultless) (FontManagerUtils.cleanupDirs selected userIds) (fun _ w' => Kept lib w') w := by
  induction userIds generalizing w with
  | nil => exact h
  | cons u rest ih =>
    have hu := hids u List.mem_cons_self
    have hrest : ∀ v ∈ rest, v ∈ lib.userIds := fun v hv => hids v (List.mem_cons_of_mem u hv)
    apply Ensures.bind
    apply Ensures.checkPathExist
    intro b
    cases b with
    | false => exact ih h hrest
    | true =>
      apply Ensures.bind
      intro io hio
      have hlisted : ∀ d ∈ (w.execFile io (.directories (installPath u))).1.filter selected,
          ∃ scope t, d = makeAppIdentifier scope t ∧ ∀ f ∈ lib.books u, f.slot.dir ≠ some d := by
        intro d hd
        obtain ⟨hmem, hsel⟩ := List.mem_filter.mp hd
        have hok : (w.execFile io (.directories (installPath u))).1 =
            w.directories (installPath u) := if_pos hio.1
        rw [hok] at hmem
        obtain ⟨scope, t, rfl⟩ := listed_app h hu hmem (hselected d hsel)
        refine ⟨scope, t, rfl, ?_⟩
        intro f hf hdir
        rw [hclear u hu f hf _ hdir] at hsel
        cases hsel
      apply Ensures.bind
      apply (h.deleteDirs hlisted).mono
      intro _ w₁ h₁
      exact ih h₁ hrest

end sweeping

end FontLibrary
