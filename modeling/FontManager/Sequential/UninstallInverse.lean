import FontManager.Sequential.ScopeCleanup

open FontDefine FontManagerUtils FontLocation FontConfig StoreInvariant ScopeCleanup Interaction
  KeyedList CJson

namespace UninstallInverse

def Scratch (u : Int) (l : Loc) : Prop :=
  l = userDir u ∨ l = configLoc u ∨ userDir u ++ [tempDir] <+: l

structure Undone (u : Int) (w w₁ w₂ : World) (code : FontErrorCode) (path : Str) : Prop where
  succeeded : code = .ok
  fontlist : ∃ front item, listed (w₁.config u) = front ++ [item] ∧
    stringItem item fontPath = some path ∧ listed (w₂.config u) = front
  file : w₂.entry (realPath u path) = none
  others : ∀ l, l ≠ configLoc u → ¬ locate (realPath u path) <+: l →
    w₂.tree.lookup l = w₁.tree.lookup l
  files : ∀ l, ¬ Scratch u l → w₂.tree.lookup l = w.tree.lookup l

structure Reversible (u : Int) (w : World) (fd : Fd) (path name : Str) (front : List Json) :
    Prop where
  noBackslash : '\\' ∉ getFileName (getFilePathByFd fd)
  first : ∀ other ∈ front, named name other = false
  vacant : ∀ l, locate (realPath u path) <+: l → w.tree.lookup l = none

section paths

def userPaths (r : Record) : List Str := if r.appIdentifier = none then [r.fontPath] else []

variable {ok : World → Op → Io → Prop} {u : Int} {v v' : View} {w w' : World} {code : FontErrorCode}

theorem userPaths_effect {c : FontCall} (hv : Apart userPaths v.records)
    (h : c.Effect ok u v w code v' w') : Apart userPaths v'.records := by
  refine h.apart hv fun rs r hr q hq k hkq hk => ?_
  cases c with
  | installFont env fd =>
    obtain ⟨hfresh, rfl⟩ := hr
    have hpath := user_fontPath env fd (getFullNamesByFd fd)
    simp only [userPaths, Record.user, if_true, List.mem_singleton] at hk
    unfold userPaths at hkq
    split at hkq
    · rw [List.mem_singleton.mp hkq] at hk
      exact hfresh q hq (hk.trans hpath)
    · cases hkq
  | installScopeFont env fd scope srcPath bundleName t =>
    rw [hr.2, userPaths, FontCall.app_identifier, if_neg (by simp)] at hk
    cases hk
  | _ => exact hr.elim

theorem reachable_userPaths (h : w.config u = some emptyConfig) (es : List (FontCall × List Io)) :
    ∃ v : View, v.Placed ∧ Apart userPaths v.records ∧ v.Shows u ((FontCall.service u).after w es) := by
  have step : ∀ (w : World) (e : FontCall × List Io),
      (∃ v : View, v.Placed ∧ Apart userPaths v.records ∧ v.Shows u w) →
        ∃ v : View, v.Placed ∧ Apart userPaths v.records ∧
          v.Shows u ((FontCall.service u).complete w e).2 := by
    rintro w e ⟨v, hp, ha, hv⟩
    obtain ⟨v', hv', heffect⟩ :=
      FontCall.complete_unchecked hp hv e.1 e.2
    exact ⟨v', heffect.placed hp, userPaths_effect ha heffect, hv'⟩
  exact Service.after_invariant step
    ⟨some [], by simp [View.Placed, View.records], apart_nil, shows_empty h⟩ es

theorem other_path {rs : List Record} {r q : Record} {s : Slot}
    (hp : View.Placed (some (rs ++ [r]))) (ha : Apart userPaths (rs ++ [r])) (hr : r.PlacedAt s)
    (hs : s.dir = none) (hq : q ∈ rs) : q.fontPath ≠ r.fontPath := by
  intro hpath
  obtain ⟨s', hs'⟩ := hp q (List.mem_append_left _ hq)
  obtain rfl := sandbox_injective hs'.valid hr.valid (hs'.path.symm.trans (hpath.trans hr.path))
  have hmem : ∀ {t : Record}, t.PlacedAt s' → t.fontPath ∈ userPaths t := fun ht => by
    rw [userPaths, if_pos (ht.dir_eq.trans hs)]
    exact List.mem_cons_self
  refine (apart_append_singleton.mp ha).2 q hq q.fontPath (hmem hs') ?_
  rw [hpath]
  exact hmem hr

end paths

structure Removal (u : Int) (v : View) (w : World) (r : Record) (s : Slot) (w' : World) : Prop where
  view : View.Shows u (v.map (List.eraseP (has Record.paths r.fontPath))) w'
  frame : Frame (fun l => s.loc u <+: l ∨ l = configLoc u) w w'
  gone : (w.tree.lookup (s.loc u)).isSome = true → ∀ l, s.loc u <+: l → w'.tree.lookup l = none

structure Uninstalled (u : Int) (v : View) (w : World) (name : Str) (code : FontErrorCode)
    (w' : World) : Prop where
  replied : code = .ok ↔ ∃ r s, v.records.find? (has Record.fullNames name) = some r ∧
    r.PlacedAt s ∧ s.dir = none ∧ '\\' ∉ s.name
  removed : code = .ok → ∀ r s, v.records.find? (has Record.fullNames name) = some r →
    r.PlacedAt s → Removal u v w r s w'

section uninstall

variable {I : Io → Prop} {u : Int} {v : View} {w : World} {name : Str}

theorem refused {code : FontErrorCode} (hcode : code ≠ .ok)
    (h : ∀ r s, v.records.find? (has Record.fullNames name) = some r → r.PlacedAt s →
      s.dir = none → '\\' ∈ s.name) : Uninstalled u v w name code w where
  replied := iff_of_false hcode fun ⟨r, s, hf, hs, hd, hb⟩ => hb (h r s hf hs hd)
  removed hok := absurd hok hcode

theorem step_deleteFontRecord_exact {r : Record} (hr : r ∈ v.records) {io : Io} (hread : io.ok = true)
    (hwrite : io.write = .complete) :
    v.step (.deleteFontRecord r.fontPath) io =
      (true, v.map (List.eraseP (has Record.paths r.fontPath))) := by
  rw [View.step_readable hread, hwrite]
  cases v with
  | none => cases hr
  | some rs =>
    have hany : rs.any (has Record.paths r.fontPath) = true :=
      List.any_eq_true.mpr ⟨r, hr, by simp [Record.paths]⟩
    simp [View.edit, RecordStore.edit, RecordStore.deleteFirst, hany, View.apply]

theorem scope_of_dir {r : Record} {s : Slot} (h : r.PlacedAt s) :
    r.info.scope ≥ 0 ↔ s.dir ≠ none := by
  rcases h.owner with ⟨hscope, -, hdir⟩ | ⟨scope, t, hs, hscope, -, hdir⟩
  · simp [Record.info, hscope, hdir, fontScopeNone]
  · rcases hs with rfl | rfl <;>
      simp [Record.info, hscope, hdir, Record.clamp, fontScopeApp, fontScopeSession] <;> decide

theorem found_slot {r r' : Record} {s s' : Slot}
    (hf : v.records.find? (has Record.fullNames name) = some r) (hs : r.PlacedAt s)
    (hf' : v.records.find? (has Record.fullNames name) = some r') (hs' : r'.PlacedAt s') :
    r' = r ∧ s' = s := by
  obtain rfl := Option.some.inj (hf.symm.trans hf')
  exact ⟨rfl, sandbox_injective hs'.valid hs.valid (hs'.path.symm.trans hs.path)⟩

theorem deleteRecord_exact (hI : ∀ io, I io → Undisturbed io) (hv : v.Shows u w) {r : Record}
    {s : Slot} (hf : v.records.find? (has Record.fullNames name) = some r) (hs : r.PlacedAt s)
    (hdir : s.dir = none) (hb : '\\' ∉ s.name) (w₁ : World) (h₁ : Frame (s.loc u <+: ·) w w₁)
    (hgone : (w.tree.lookup (s.loc u)).isSome = true →
      ∀ l, s.loc u <+: l → w₁.tree.lookup l = none) :
    Ensures (each I) (FontManager.config u (.deleteFontRecord s.sandbox) >>= fun deleted : Bool =>
      if deleted then do
        FontManager.publishFontUpdate .uninstall name u
        pure .ok
      else pure .uninstallFail) (Uninstalled u v w name) w₁ := by
  have hv₁ := hv.frame h₁ (configLoc_not_loc hs.valid)
  refine Ensures.bind (Ensures.config hv₁ fun io w₂ hio h₂ hv₂ => ?_)
  rw [← hs.path, step_deleteFontRecord_exact (List.mem_of_find?_eq_some hf) (hI io hio).1
    (hI io hio).2] at hv₂ ⊢
  refine fun _ _ => ⟨iff_of_true rfl ⟨r, s, hf, hs, hdir, hb⟩, fun _ r' s' hf' hs' => ?_⟩
  obtain ⟨rfl, rfl⟩ := found_slot hf hs hf' hs'
  refine ⟨hv₂, (h₁.trans h₂).step ⟨fun _ _ => rfl, rfl, rfl, rfl⟩, fun hsome l hl => ?_⟩
  have hconfig : l ≠ configLoc u := fun he => configLoc_not_loc hs'.valid (he ▸ hl)
  exact (h₂.tree l hconfig).trans (hgone hsome l hl)

theorem uninstallFont_exact (hI : ∀ io, I io → Undisturbed io) (hp : v.Placed) (hv : v.Shows u w)
    (hname : name ≠ []) :
    Ensures (each I) (FontManager.uninstallFont name u) (Uninstalled u v w name) w := by
  unfold FontManager.uninstallFont
  rw [if_neg hname]
  refine Ensures.bind (Ensures.read hv (fun io hio => (hI io hio).1) (v.edit_getFontRecordByName name) ?_)
  rw [RecordStore.findInfo]
  cases hf : v.records.find? (has Record.fullNames name) with
  | none => exact Ensures.pure (refused (by simp) (by simp [hf]))
  | some r =>
    obtain ⟨s, hs⟩ := hp r (List.mem_of_find?_eq_some hf)
    rw [Option.map_some]
    dsimp only
    have hpath : r.info.fontPath = s.sandbox := hs.path
    have hscope := scope_of_dir hs
    rw [hpath]
    by_cases hdir : s.dir = none
    · rw [if_neg (by simp [sandbox_ne_nil s, hscope, hdir])]
      refine Ensures.bind (resolve_exact hI hs.valid ?_)
      by_cases hb : '\\' ∈ s.name
      · rw [if_pos hb]
        exact Ensures.pure (refused (by simp) fun r' s' hf' hs' _ =>
          (found_slot hf hs hf' hs').2 ▸ hb)
      · rw [if_neg hb, if_neg (joinPath_loc_ne u s)]
        have finish := deleteRecord_exact hI hv hf hs hdir hb
        refine Ensures.bind (removeIfExists_exact hI hs.valid (fun hmissing => ?_) fun _ => ?_)
        · exact finish _ (.refl _ w) fun hsome => by simp [hmissing] at hsome
        · refine finish _ (World.frame_prune w _) fun _ l hl => ?_
          rw [FileTree.lookup_prune, if_pos hl]
    · rw [if_pos (Or.inr (hscope.mpr hdir))]
      exact Ensures.pure (refused (by simp) fun r' s' hf' hs' hd =>
        absurd ((found_slot hf hs hf' hs').2 ▸ hd) hdir)

end uninstall

section location

variable {u : Int} {s : Slot} {l : Loc}

theorem below_not_scratch (hs : s.Valid) (hl : s.loc u <+: l) (hd : s.dir = none) :
    ¬ Scratch u l := by
  obtain ⟨back, rfl⟩ := hl
  obtain ⟨dir, name⟩ := s
  obtain rfl : dir = none := hd
  rintro (h | h | h)
  · simpa [Slot.loc, Slot.sub] using congrArg List.length h
  · exact configLoc_not_loc hs ⟨back, h⟩
  · rw [Slot.loc, List.append_assoc, List.prefix_append_right_inj] at h
    obtain ⟨htemp, -⟩ := List.cons_prefix_cons.mp h
    exact tempDir_ne_name hs.tagged htemp.symm

theorem not_touched (hd : s.dir = none) (hl : ¬ s.loc u <+: l) (hscratch : ¬ Scratch u l) :
    ¬ InstallTouches u s l := by
  obtain ⟨dir, name⟩ := s
  obtain rfl : dir = none := hd
  rintro ((h | h | h) | ⟨d, hd, -⟩ | (h | h) | h)
  · exact hscratch (Or.inl h)
  · exact hscratch (Or.inr (Or.inr (FileTree.prefix_of_eq h.symm)))
  · exact hscratch (Or.inr (Or.inl h))
  · cases hd
  · refine hscratch (Or.inr (Or.inr (List.IsPrefix.trans ⟨[name], ?_⟩ h)))
    simp
  · refine hl (FileTree.prefix_of_eq ?_)
    rw [h]
    simp [Slot.loc, Slot.sub]
  · exact hl h

end location

theorem backslash_tagged (env : Env) (fileName : Str) :
    '\\' ∈ FontManager.taggedName env fileName ↔ '\\' ∈ fileName := by
  have htime : '\\' ∉ getFileTime env.clock := fun h => by
    rcases mem_getFileTime h with h | h
    · cases h
    · exact absurd h (by decide)
  have hthread : '\\' ∉ Text.decimal env.thread := Text.not_mem_decimal (by decide) (by decide) _
  simp [FontManager.taggedName, htime, hthread]

structure Copied (u : Int) (s : Slot) (fd : Fd) (w w' : World) : Prop where
  frame : Frame (InstallTouches u s) w w'
  file : w'.tree.lookup (s.loc u) = some (.bytes fd.content)

theorem copied_of_effect {ok : World → Op → Io → Prop} {u : Int} {s : Slot} {fresh : List Record → Prop}
    {r : Record} {fd : Fd} {v v' : View} {w w' : World} (hv' : v' ≠ none)
    (h : InstallEffect ok u s fresh r fd v w .ok v' w') : Copied u s fd w w' := by
  cases h with
  | failed hcode => exact absurd rfl hcode
  | skipped _ _ _ _ hframe hfile => exact ⟨hframe, hfile⟩
  | lost => exact absurd rfl hv'
  | stored _ _ _ hframe hfile => exact ⟨hframe, hfile⟩

section restore

variable {u : Int} {s : Slot} {rs : List Record} {r : Record} {w w₁ w₂ : World} {fd : Fd} {name : Str}
  {code : FontErrorCode}

theorem erase_last (hother : ∀ q ∈ rs, q.fontPath ≠ r.fontPath) :
    (rs ++ [r]).eraseP (has Record.paths r.fontPath) = rs := by
  have hnone : ∀ q ∈ rs, ¬ has Record.paths r.fontPath q = true := fun q hq hkey => by
    simp only [has_iff, Record.paths, List.mem_singleton] at hkey
    exact hother q hq hkey.symm
  rw [List.eraseP_append_right _ hnone]
  simp [Record.paths]

theorem found_last {q : Record} (hother : ∀ q ∈ rs, q.fontPath ≠ r.fontPath)
    (hq : q ∈ rs ++ [r]) (herase : (rs ++ [r]).eraseP (has Record.paths q.fontPath) = rs) :
    q = r := by
  rcases List.mem_append.mp hq with hmem | hlast
  · rw [List.eraseP_append_left (by simp [Record.paths]) _ hmem] at herase
    exact absurd rfl (hother r (herase ▸ List.mem_append_right _ List.mem_cons_self))
  · exact List.mem_singleton.mp hlast

theorem first_of_last (hother : ∀ q ∈ rs, q.fontPath ≠ r.fontPath)
    (hf : (rs ++ [r]).find? (has Record.fullNames name) = some r) :
    ∀ q ∈ rs, name ∉ q.fullNames := by
  rw [List.find?_append] at hf
  cases hfind : rs.find? (has Record.fullNames name) with
  | none => exact find_has_none.mp hfind
  | some q =>
    rw [hfind] at hf
    obtain rfl : q = r := by simpa using hf
    exact absurd rfl (hother q (find_has_some hfind).1)

theorem undone_iff (hs : r.PlacedAt s) (hd : s.dir = none) (hp : View.Placed (some (rs ++ [r])))
    (hother : ∀ q ∈ rs, q.fontPath ≠ r.fontPath) (hcopied : Copied u s fd w w₁)
    (hv : View.Shows u (some (rs ++ [r])) w₁) (hname : name ∈ r.fullNames)
    (h : Uninstalled u (some (rs ++ [r])) w₁ name code w₂) :
    Undone u w w₁ w₂ code r.fontPath ↔
      '\\' ∉ s.name ∧ (∀ q ∈ rs, name ∉ q.fullNames) ∧
        ∀ l, s.loc u <+: l → w.tree.lookup l = none := by
  have hloc : locate (realPath u r.fontPath) = s.loc u := by
    rw [hs.path, locate_realPath hs.valid]
  have hpresent : (w₁.tree.lookup (s.loc u)).isSome = true := by
    rw [hcopied.file]
    rfl
  have hrecords : View.records (some (rs ++ [r])) = rs ++ [r] := rfl
  constructor
  · intro hundone
    obtain ⟨q, t, hf, ht, htd, htb⟩ := h.replied.mp hundone.succeeded
    have hremoval := h.removed hundone.succeeded q t hf ht
    obtain ⟨front, item, hlist, -, hafter⟩ := hundone.fontlist
    rw [listed_shows hv, hrecords, List.map_append, List.map_singleton] at hlist
    obtain ⟨rfl, -⟩ := List.append_inj' hlist rfl
    rw [listed_shows hremoval.view] at hafter
    have herase : (rs ++ [r]).eraseP (has Record.paths q.fontPath) = rs :=
      List.map_injective_iff.mpr (fun _ _ => Record.item_injective) hafter
    obtain rfl := found_last hother (List.mem_of_find?_eq_some hf) herase
    obtain rfl := sandbox_injective ht.valid hs.valid (ht.path.symm.trans hs.path)
    refine ⟨htb, first_of_last hother hf, fun l hl => ?_⟩
    · rw [← hundone.files l (below_not_scratch hs.valid hl hd)]
      exact hremoval.gone hpresent l hl
  · rintro ⟨hb, hfirst, hvacant⟩
    have hf : (View.records (some (rs ++ [r]))).find? (has Record.fullNames name) = some r := by
      rw [hrecords, List.find?_append, find_has_none.mpr hfirst]
      simp [hname]
    have hok : code = .ok := h.replied.mpr ⟨r, s, hf, hs, hd, hb⟩
    have hremoval := h.removed hok r s hf hs
    refine ⟨hok, ⟨rs.map Record.item, r.item, ?_, r.stringItem_fontPath, ?_⟩, ?_, ?_, ?_⟩
    · rw [listed_shows hv, hrecords, List.map_append, List.map_singleton]
    · rw [listed_shows hremoval.view, Option.map_some, erase_last hother]
      rfl
    · rw [World.entry, hloc]
      exact hremoval.gone hpresent _ List.prefix_rfl
    · intro l hconfig hl
      rw [hloc] at hl
      exact hremoval.frame.tree l (not_or.mpr ⟨hl, hconfig⟩)
    · intro l hscratch
      by_cases hl : s.loc u <+: l
      · rw [hremoval.gone hpresent l hl, hvacant l hl]
      · have hconfig : l ≠ configLoc u := fun he => hscratch (Or.inr (Or.inl he))
        rw [hremoval.frame.tree l (not_or.mpr ⟨hl, hconfig⟩),
          hcopied.frame.tree l (not_touched hd hl hscratch)]

end restore

theorem uninstall_restores_iff {u : Int} {w w₁ w₂ : World} {env : Env} {fd : Fd}
    {code : FontErrorCode} {path name : Str} {front : List Json} {item : Json}
    (es : List (FontCall × List Io)) (installIos removeIos : List Io)
    (h : w.config u = some emptyConfig) (hios : ∀ io ∈ removeIos, Undisturbed io)
    (hinstall : (FontCall.service u).complete ((FontCall.service u).after w es)
      (.installFont env fd, installIos) = (.ok, w₁))
    (hlisted : listed (w₁.config u) = front ++ [item]) (hpath : stringItem item fontPath = some path)
    (htarget : path ∈ (FontCall.installFont env fd).target) (hname : name ≠ [])
    (hnamed : named name item = true)
    (huninstall : (FontCall.service u).complete w₁ (.uninstallFont name, removeIos) = (code, w₂)) :
    Undone u ((FontCall.service u).after w es) w₁ w₂ code path ↔
      Reversible u ((FontCall.service u).after w es) fd path name front := by
  obtain ⟨v, hp, ha, hv⟩ := reachable_userPaths h es
  obtain ⟨v', hv', heffect⟩ := FontCall.complete_unchecked hp hv (.installFont env fd) installIos
  rw [hinstall] at hv' heffect
  have hp' := heffect.placed hp
  have ha' := userPaths_effect ha heffect
  rw [listed_shows hv'] at hlisted
  obtain ⟨rs, last, hrecords, rfl, hlast⟩ := List.map_eq_append_iff.mp hlisted
  obtain ⟨r, rfl, rfl⟩ := List.map_eq_singleton_iff.mp hlast
  obtain rfl : v' = some (rs ++ [r]) := by
    cases v' with
    | none => simp [View.records] at hrecords
    | some rs' => exact congrArg some hrecords
  have hslot : path = (userSlot env fd).sandbox :=
    Option.some.inj ((Option.mem_def.mp htarget).symm.trans (target_user env fd))
  rw [r.stringItem_fontPath, Option.some.injEq] at hpath
  obtain ⟨s, hs⟩ := hp' r (List.mem_append_right _ List.mem_cons_self)
  obtain rfl := sandbox_injective hs.valid (userSlot_valid env fd)
    (hs.path.symm.trans (hpath.trans hslot))
  have hother : ∀ q ∈ rs, q.fontPath ≠ r.fontPath := fun q hq => other_path hp' ha' hs rfl hq
  have huninstalled : Uninstalled u (some (rs ++ [r])) w₁ name code w₂ := by
    have hrun := Program.run_of_wp semantics Undisturbed ⟨rfl, rfl⟩
      (uninstallFont_exact (fun _ hio => hio) hp' hv' hname) hios
    change Uninstalled u _ w₁ name
      ((FontCall.service u).complete w₁ (.uninstallFont name, removeIos)).1
      ((FontCall.service u).complete w₁ (.uninstallFont name, removeIos)).2 at hrun
    rwa [huninstall] at hrun
  rw [Record.named_item, has_iff] at hnamed
  rw [← hpath, undone_iff hs rfl hp' hother (copied_of_effect (by simp) heffect) hv' hnamed huninstalled,
    userSlot, backslash_tagged]
  have hloc : locate (realPath u r.fontPath) = (userSlot env fd).loc u := by
    rw [hs.path, locate_realPath hs.valid]
  constructor
  · rintro ⟨hb, hfirst, hvacant⟩
    refine ⟨hb, fun other hother => ?_, by rwa [hloc]⟩
    obtain ⟨q, hq, rfl⟩ := List.mem_map.mp hother
    rw [Record.named_item, has_eq_false]
    exact hfirst q hq
  · rintro ⟨hb, hfirst, hvacant⟩
    refine ⟨hb, fun q hq hn => ?_, by rwa [hloc] at hvacant⟩
    have hunnamed := hfirst q.item (List.mem_map_of_mem hq)
    rw [Record.named_item, has_eq_false] at hunnamed
    exact hunnamed hn

section backslash

def fontFrom (link : String) : Fd := ⟨some link.toList, [1], ["A".toList]⟩

def install (link : String) : FontCall × List Io := (.installFont (Sample.noon 0) (fontFrom link), [])

def uninstall : FontCall × List Io := (.uninstallFont "A".toList, [])

def installed (link : String) : World := (FontCall.service 100).after (.provisioned [100]) [install link]

def removed (link : String) : World :=
  (FontCall.service 100).after (.provisioned [100]) [install link, uninstall]

def storedPath (link : String) : Str :=
  installPathApp ++ FontManager.taggedName (Sample.noon 0) (getFileName link.toList)

def storedItem (link : String) : Json := (Record.user (storedPath link) ["A".toList]).item

set_option maxRecDepth 4000 in
theorem backslash_not_uninstalled :
    ¬ ∀ (u : Int) (w w₁ w₂ : World) (env : Env) (fd : Fd) (code : FontErrorCode) (path name : Str)
      (item : Json), w.config u = some emptyConfig →
      (FontCall.service u).complete w (.installFont env fd, []) = (.ok, w₁) →
      listed (w₁.config u) = [item] → stringItem item fontPath = some path → name ≠ [] →
      named name item = true →
      (FontCall.service u).complete w₁ (.uninstallFont name, []) = (code, w₂) →
      Undone u w w₁ w₂ code path := by
  intro h
  have hundone := h 100 (.provisioned [100]) (installed "/data/a\\b.ttf") (removed "/data/a\\b.ttf")
    (Sample.noon 0) (fontFrom "/data/a\\b.ttf") .uninstallFileNotExists (storedPath "/data/a\\b.ttf")
    "A".toList (storedItem "/data/a\\b.ttf") rfl (Prod.ext (by decide) rfl) rfl (by decide)
    (by decide) (by decide) (Prod.ext (by decide) rfl)
  exact absurd hundone.succeeded (by decide)

set_option maxRecDepth 4000 in
theorem plain_name_uninstalled :
    Undone 100 (.provisioned [100]) (installed "/data/a.ttf") (removed "/data/a.ttf") .ok
      (storedPath "/data/a.ttf") :=
  (uninstall_restores_iff [] [] [] rfl (by simp) (Prod.ext (by decide) rfl) rfl rfl rfl (by decide)
    (by decide) (Prod.ext (by decide) rfl)).mpr
      ⟨by decide, by simp, fun l hl => FileTree.lookup_below (by decide) hl⟩

end backslash

end UninstallInverse
