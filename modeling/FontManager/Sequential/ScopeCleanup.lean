import FontManager.Sequential.StoreInvariant

open FontDefine FontManagerUtils FontLocation FontConfig StoreInvariant Interaction KeyedList CJson

namespace ScopeCleanup

def Undisturbed (io : Io) : Prop := io.ok = true ∧ io.write = .complete

def selects : FontCall → Option (Json → Bool)
  | .cleanupAppScopeFonts scope tokenId => some (ofApp (makeAppIdentifier scope tokenId))
  | .cleanupScopeFontsByUser => some (scopeWith (· ≥ 0))
  | .cleanupAppScopeFontsByUser => some (scopeWith (· = fontScopeApp))
  | _ => none

structure Exact (u : Int) (w w' : World) (p : Json → Bool) : Prop where
  fontlist : listed (w'.config u) = (listed (w.config u)).filter fun item => !p item
  removed : ∀ item ∈ listed (w.config u), p item = true →
    ∀ path, stringItem item fontPath = some path → w'.entry (realPath u path) = none
  remaining : ∀ item ∈ listed (w.config u), p item = false →
    ∀ path, stringItem item fontPath = some path →
      w'.entry (realPath u path) = w.entry (realPath u path)

def sweepsDirectory (u : Int) (w : World) : FontCall → Bool
  | .cleanupAppScopeFonts scope tokenId =>
    w.pathExists (FontManager.getAppInstallPath u (makeAppIdentifier scope tokenId))
  | _ => false

structure Sweepable (u : Int) (w : World) (c : FontCall) (p : Json → Bool) : Prop where
  located : ∀ item ∈ listed (w.config u), p item = true → (stringItem item fontSrcPath).isSome = true
  leading : (listed (w.config u)).Pairwise fun a b => p b = true →
    stringItem a fontSrcPath = stringItem b fontSrcPath → p a = true
  removable : ∀ item ∈ listed (w.config u), p item = true →
    ∀ path, stringItem item fontPath = some path → '\\' ∈ getFileName path →
      w.entry (realPath u path) = none ∨ sweepsDirectory u w c = true

theorem joinPath_loc_ne (u : Int) (s : Slot) : joinPath (s.loc u) ≠ [] := by
  simp [Slot.loc, Slot.sub, joinPath]

section removal

variable {I : Io → Prop} (hI : ∀ io, I io → Undisturbed io) {u : Int} {v : View} {w : World}

include hI

theorem checkPathExist_exact {path : Str} (hp : path ≠ []) {Q : Bool → World → Prop}
    (h : Q (w.pathExists path) w) : Ensures (each I) (checkPathExist path) Q w := by
  intro io hio
  show Q (path ≠ [] && io.ok && w.pathExists path) w
  simpa [hp, (hI io hio).1] using h

theorem weaklyCanonical_exact {path : Str} {Q : Option Str → World → Prop}
    (h : Q (some (lexicallyNormal path)) w) : Ensures (each I) (weaklyCanonical path) Q w := by
  intro io hio
  show Q (if io.ok then some (lexicallyNormal path) else none) w
  simpa [(hI io hio).1] using h

theorem removeAll_exact {path : Str} {Q : Bool → World → Prop}
    (h : Q true { w with tree := w.tree.prune (locate path) }) :
    Ensures (each I) (removeAll path) Q w := by
  intro io hio
  show Q (w.removeAll path io).1 (w.removeAll path io).2
  simpa [World.removeAll, (hI io hio).1] using h

theorem removeFile_exact {path : Str} (hp : path ≠ []) (he : w.pathExists path = true)
    {Q : Bool → World → Prop} (h : Q true { w with tree := w.tree.prune (locate path) }) :
    Ensures (each I) (removeFile path) Q w := by
  refine Ensures.bind (checkPathExist_exact hI hp ?_)
  rw [he, if_pos rfl]
  exact removeAll_exact hI h

theorem deleteDir_exact {path : Str} (hp : path ≠ []) {Q : Unit → World → Prop}
    (hmissing : w.pathExists path = false → Q () w)
    (hpresent : w.pathExists path = true → Q () { w with tree := w.tree.prune (locate path) }) :
    Ensures (each I) (deleteDir path) Q w := by
  refine Ensures.bind (checkPathExist_exact hI hp ?_)
  cases he : w.pathExists path with
  | false => exact Ensures.pure (hmissing he)
  | true => exact Ensures.bind (removeAll_exact hI (Ensures.pure (hpresent he)))

theorem resolve_exact {s : Slot} (hs : s.Valid) {Q : Str → World → Prop}
    (h : Q (if '\\' ∈ s.name then [] else joinPath (s.loc u)) w) :
    Ensures (each I) (FontManager.validateAndResolveRealPath (installPath u) s.sandbox) Q w := by
  have hname := hs.tagged.plain
  have hescapes : FontManager.escapes s.name = decide ('\\' ∈ s.name) := by
    simp [FontManager.escapes, hname.nonempty, hname.notDot, hname.notDotDot, hname.noSlash]
  have hnormal : lexicallyNormal (FontManager.sandBoxPathToRealPath (installPath u) s.sandbox) =
      joinPath (s.loc u) :=
    lexicallyNormal_of_locate (locate_realPath hs u) (by simp [Slot.loc, Slot.sub])
  unfold FontManager.validateAndResolveRealPath
  rw [getFileName_sandbox hs, hescapes]
  by_cases hb : '\\' ∈ s.name
  · rw [if_pos (by simpa using hb)]
    rw [if_pos hb] at h
    exact Ensures.pure h
  · rw [if_neg (by simpa using hb)]
    rw [if_neg hb] at h
    refine Ensures.bind (weaklyCanonical_exact hI ?_)
    rw [hnormal]
    refine Ensures.bind (weaklyCanonical_exact hI ?_)
    simp only [installDir_leads, if_true]
    exact Ensures.pure h

theorem removeIfExists_exact {s : Slot} (hs : s.Valid) {Q : Bool → World → Prop}
    (hmissing : w.tree.lookup (s.loc u) = none → Q true w)
    (hpresent : (w.tree.lookup (s.loc u)).isSome = true →
      Q true { w with tree := w.tree.prune (s.loc u) }) :
    Ensures (each I) (FontManager.removeIfExists (joinPath (s.loc u))) Q w := by
  have hloc : locate (joinPath (s.loc u)) = s.loc u := locate_joinPath (loc_plain hs u)
  have hexists : w.pathExists (joinPath (s.loc u)) = (w.tree.lookup (s.loc u)).isSome := by
    rw [World.pathExists, World.entry, hloc]
  unfold FontManager.removeIfExists
  rw [if_neg (joinPath_loc_ne u s)]
  refine Ensures.bind (checkPathExist_exact hI (joinPath_loc_ne u s) ?_)
  cases he : w.pathExists (joinPath (s.loc u)) with
  | false => exact Ensures.pure (hmissing (by simpa [hexists] using he))
  | true =>
    refine removeFile_exact hI (joinPath_loc_ne u s) he ?_
    rw [hloc]
    exact hpresent (hexists.symm.trans he)

theorem removePlaced_exact {α : Type} {s : Slot} (hs : s.Valid) {f : Bool → FontTask α}
    {Q : α → World → Prop}
    (h : ∀ w', Frame (s.loc u <+: ·) w w' →
      (if '\\' ∈ s.name then w' = w else w'.tree.lookup (s.loc u) = none) →
      Ensures (each I) (f true) Q w') :
    Ensures (each I) (FontManager.validateAndResolveRealPath (installPath u) s.sandbox >>= fun path =>
      FontManager.removeIfExists path >>= f) Q w := by
  refine Ensures.bind (resolve_exact hI hs ?_)
  by_cases hb : '\\' ∈ s.name
  · rw [if_pos hb]
    exact h _ (.refl _ w) (by rw [if_pos hb])
  · rw [if_neg hb]
    refine Ensures.bind (removeIfExists_exact hI hs (fun hmissing => ?_) fun _ => ?_)
    · exact h _ (.refl _ w) (by rw [if_neg hb, hmissing])
    · refine h _ (World.frame_prune w _) ?_
      rw [if_neg hb, FileTree.lookup_prune, if_pos List.prefix_rfl]

end removal

def srcKey (r : Record) : Str := r.srcPath.getD []

structure Swept (u : Int) (v : View) (w : World) (infos : List FontRecordInfo) (w' : World) :
    Prop where
  view : View.Shows u (v.map (eraseAll Record.urls (infos.map (·.srcPath)))) w'
  frame : Frame (fun l => l = configLoc u ∨ ∃ s : Slot, s.Valid ∧ s.loc u <+: l) w w'
  gone : ∀ info ∈ infos, ∀ s : Slot, s.Valid → info.fontPath = s.sandbox → '\\' ∉ s.name →
    w'.tree.lookup (s.loc u) = none
  same : ∀ t : Slot, t.Valid → (∀ info ∈ infos, info.fontPath = t.sandbox → '\\' ∈ t.name) →
    w'.tree.lookup (t.loc u) = w.tree.lookup (t.loc u)

theorem step_delete_exact (v : View) (srcPath : Str) {io : Io} (hio : Undisturbed io) :
    (v.step (.deleteScopeFontRecordByUrl srcPath) io).2 =
      v.map (List.eraseP (has Record.urls srcPath)) := by
  rw [View.step_readable hio.1, hio.2]
  cases v with
  | none => rfl
  | some rs =>
    simp only [View.edit, RecordStore.edit, RecordStore.deleteFirst]
    split
    · rfl
    · rename_i hany
      have hnone : ∀ r ∈ rs, ¬ has Record.urls srcPath r = true := fun r hr h =>
        hany (List.any_eq_true.mpr ⟨r, hr, h⟩)
      simp [View.apply, List.eraseP_of_forall_not hnone]

theorem slot_ne_configLoc {u : Int} {s : Slot} (hs : s.Valid) : s.loc u ≠ configLoc u := fun he =>
  configLoc_not_loc hs (FileTree.prefix_of_eq he)

section sweep

variable {I : Io → Prop} (hI : ∀ io, I io → Undisturbed io) {u : Int}

include hI

theorem sweepRecords_exact {infos : List FontRecordInfo} {v : View} {w : World}
    (hplaced : ∀ info ∈ infos, ∃ s : Slot, s.Valid ∧ info.fontPath = s.sandbox)
    (hv : v.Shows u w) :
    Ensures (each I) (FontManager.sweepRecords u infos) (fun _ w' => Swept u v w infos w') w := by
  induction infos generalizing v w with
  | nil =>
    refine Ensures.pure ⟨?_, .refl _ w, by simp, fun _ _ _ => rfl⟩
    cases v <;> exact hv
  | cons info rest ih =>
    obtain ⟨⟨s, hs, hpath⟩, hrest⟩ := List.forall_mem_cons.mp hplaced
    unfold FontManager.sweepRecords
    rw [hpath]
    refine removePlaced_exact hI hs fun w₁ h₁ hfile => ?_
    have hv₁ := hv.frame h₁ (configLoc_not_loc hs)
    refine Ensures.bind (Ensures.config hv₁ fun io w₂ hio h₂ hv₂ => ?_)
    rw [step_delete_exact v info.srcPath (hI io hio)] at hv₂
    have hother : ∀ t : Slot, t.Valid → w₂.tree.lookup (t.loc u) = w₁.tree.lookup (t.loc u) :=
      fun t ht => h₂.tree _ (slot_ne_configLoc ht)
    refine (ih hrest hv₂).mono fun _ w' hw' => ⟨?_, ?_, ?_, ?_⟩
    · have hview := hw'.view
      rw [Option.map_map] at hview
      exact hview
    · refine ((h₁.mono fun l hl => Or.inr ⟨s, hs, hl⟩).step (h₂.mono fun l hl => Or.inl hl)).step
        hw'.frame
    · intro info' hinfo t ht hpt hb
      by_cases hin : ∃ i ∈ rest, i.fontPath = t.sandbox
      · obtain ⟨i, hi, hit⟩ := hin
        exact hw'.gone i hi t ht hit hb
      · rcases List.mem_cons.mp hinfo with rfl | hinfo
        · obtain rfl := sandbox_injective ht hs (hpt.symm.trans hpath)
          rw [hw'.same t ht fun i hi hit => absurd ⟨i, hi, hit⟩ hin, hother t ht]
          rwa [if_neg hb] at hfile
        · exact absurd ⟨info', hinfo, hpt⟩ hin
    · intro t ht hkeep
      obtain ⟨hhead, htail⟩ := List.forall_mem_cons.mp hkeep
      rw [hw'.same t ht htail, hother t ht]
      by_cases hst : s = t
      · obtain rfl := hst
        rw [if_pos (hhead hpath)] at hfile
        rw [hfile]
      · exact h₁.tree _ fun hp => hst (loc_leads hs ht hp).2

end sweep

def chosen : FontCall → Record → Bool
  | .cleanupAppScopeFonts scope tokenId => has Record.apps (makeAppIdentifier scope tokenId)
  | .cleanupScopeFontsByUser => Record.inScope (· ≥ 0)
  | .cleanupAppScopeFontsByUser => Record.inScope (· = fontScopeApp)
  | _ => fun _ => false

def Whole (u : Int) (w : World) (c : FontCall) (s : Slot) : Prop :=
  match c with
  | .cleanupAppScopeFonts scope tokenId =>
    sweepsDirectory u w c = true ∧ s.dir = some (makeAppIdentifier scope tokenId)
  | _ => False

structure Cleaned (u : Int) (v : View) (w : World) (c : FontCall) (w' : World) : Prop where
  view : View.Shows u (v.map (eraseAll Record.urls ((v.records.filter (chosen c)).map srcKey))) w'
  gone : ∀ r ∈ v.records, chosen c r = true → ∀ s : Slot, s.Valid → r.fontPath = s.sandbox →
    '\\' ∉ s.name → w'.tree.lookup (s.loc u) = none
  whole : ∀ s : Slot, Whole u w c s → w'.tree.lookup (s.loc u) = none
  same : ∀ t : Slot, t.Valid →
    (∀ r ∈ v.records, chosen c r = true → r.fontPath = t.sandbox → '\\' ∈ t.name) →
    ¬ Whole u w c t → w'.tree.lookup (t.loc u) = w.tree.lookup (t.loc u)

theorem Cleaned.published {u : Int} {v : View} {w w' : World} {c : FontCall}
    (h : Cleaned u v w c w') (events : List FontEvent) :
    Cleaned u v w c { w' with published := events } := ⟨h.view, h.gone, h.whole, h.same⟩

theorem collect_srcPath (q : Record → Bool) (rs : List Record) :
    (RecordStore.collect q rs).map (·.srcPath) = (rs.filter q).map srcKey := by
  simp only [RecordStore.collect, List.map_map]
  rfl

theorem cleaned_of_swept {u : Int} {v : View} {w w' : World} {c : FontCall}
    (h : Swept u v w (RecordStore.collect (chosen c) v.records) w')
    (hw : ∀ s : Slot, ¬ Whole u w c s) : Cleaned u v w c w' where
  view := collect_srcPath (chosen c) v.records ▸ h.view
  gone r hr hq s hs hpath hb :=
    h.gone r.info (List.mem_map_of_mem (List.mem_filter.mpr ⟨hr, hq⟩)) s hs hpath hb
  whole s hs := absurd hs (hw s)
  same t ht hkeep _ := h.same t ht fun info hinfo hpath => by
    obtain ⟨r, hr, rfl⟩ := List.mem_map.mp hinfo
    exact hkeep r (List.mem_filter.mp hr).1 (List.mem_filter.mp hr).2 hpath

theorem appDir_not_below {u : Int} {s : Slot} (hs : s.Valid) (scope t : Int) :
    ¬ s.loc u <+: userDir u ++ [makeAppIdentifier scope t] := by
  rw [Slot.loc, List.prefix_append_right_inj]
  intro h
  obtain ⟨dir, name⟩ := s
  cases dir with
  | none => exact makeAppIdentifier_ne hs.tagged scope t (by simpa [Slot.sub] using h)
  | some d => simpa [Slot.sub] using h.length_le

theorem appDir_leads {u : Int} {s : Slot} (hs : s.Valid) {scope t : Int} :
    userDir u ++ [makeAppIdentifier scope t] <+: s.loc u ↔
      s.dir = some (makeAppIdentifier scope t) := by
  rw [Slot.loc, List.prefix_append_right_inj]
  obtain ⟨dir, name⟩ := s
  cases dir with
  | none => simpa [Slot.sub] using (makeAppIdentifier_ne hs.tagged scope t).symm
  | some d => simp [Slot.sub, eq_comm]

section cleanup

variable {I : Io → Prop} (hI : ∀ io, I io → Undisturbed io) {u : Int} {v : View} {w : World}

include hI

theorem deleteAppDir_exact {scope t : Int} {w₁ : World}
    (h : Swept u v w (RecordStore.collect (has Record.apps (makeAppIdentifier scope t)) v.records) w₁)
    {Q : Unit → World → Prop}
    (hQ : ∀ w', Cleaned u v w (.cleanupAppScopeFonts scope t) w' → Q () w') :
    Ensures (each I) (deleteDir (FontManager.getAppInstallPath u (makeAppIdentifier scope t))) Q w₁ := by
  have hplain := makeAppIdentifier_plain scope t
  have hloc := locate_appInstallPath u hplain
  have hne : FontManager.getAppInstallPath u (makeAppIdentifier scope t) ≠ [] := by
    simp [FontManager.getAppInstallPath]
  have hexists : w₁.pathExists (FontManager.getAppInstallPath u (makeAppIdentifier scope t)) =
      sweepsDirectory u w (.cleanupAppScopeFonts scope t) := by
    rw [sweepsDirectory, World.pathExists, World.pathExists, World.entry, World.entry, hloc,
      h.frame.tree]
    rintro (he | ⟨s, hs, hp⟩)
    · exact configLoc_ne_append (fontConfigFile_ne_app scope t) he.symm
    · exact appDir_not_below hs scope t hp
  refine deleteDir_exact hI hne (fun hmissing => hQ _ (cleaned_of_swept h fun s hs => ?_))
    fun hpresent => hQ _ ?_
  · rw [Whole, ← hexists, hmissing] at hs
    exact absurd hs.1 (by simp)
  · have hwhole : ∀ s : Slot, Whole u w (.cleanupAppScopeFonts scope t) s ↔
        s.dir = some (makeAppIdentifier scope t) := fun s => by
      rw [Whole, ← hexists, hpresent]
      simp
    have hview := h.view.frame (World.frame_prune w₁
      (locate (FontManager.getAppInstallPath u (makeAppIdentifier scope t)))) (by
        rw [hloc]
        exact userDir_noPrefix_configLoc (fontConfigFile_ne_app scope t))
    refine ⟨collect_srcPath _ v.records ▸ hview, fun r hr hq s hs hpath hb => ?_, fun s hs => ?_,
      fun s hs hkeep hnot => ?_⟩
    · rw [hloc, FileTree.lookup_prune]
      split
      · rfl
      · exact h.gone r.info (List.mem_map_of_mem (List.mem_filter.mpr ⟨hr, hq⟩)) s hs hpath hb
    · rw [hloc, FileTree.lookup_prune, if_pos]
      rw [Slot.loc, List.prefix_append_right_inj, Slot.sub, (hwhole s).mp hs]
      exact ⟨[s.name], rfl⟩
    · rw [hloc, FileTree.lookup_prune_of_not_under fun hp =>
        hnot ((hwhole s).mpr ((appDir_leads hs).mp hp))]
      exact h.same s hs fun info hinfo hpath => by
        obtain ⟨r, hr, rfl⟩ := List.mem_map.mp hinfo
        exact hkeep r (List.mem_filter.mp hr).1 (List.mem_filter.mp hr).2 hpath

theorem cleanup_exact {c : FontCall} {p : Json → Bool} (hc : selects c = some p) (hp : v.Placed)
    (hv : v.Shows u w) : Ensures (each I) (c.program u) (fun _ w' => Cleaned u v w c w') w := by
  cases c with
  | cleanupScopeFontsByUser =>
    refine Ensures.bind (Ensures.read hv (fun io hio => (hI io hio).1) v.edit_getScopeFontRecords
      (Ensures.bind ((sweepRecords_exact hI (collect_placed hp) hv).mono fun _ w₁ h => ?_)))
    exact Ensures.bind (Ensures.reportRemoved _ fun events => Ensures.pure
      ((cleaned_of_swept (c := .cleanupScopeFontsByUser) h fun _ h => h).published events))
  | cleanupAppScopeFontsByUser =>
    refine Ensures.bind (Ensures.read hv (fun io hio => (hI io hio).1) v.edit_getAppScopeFontRecords
      (Ensures.bind ((sweepRecords_exact hI (collect_placed hp) hv).mono fun _ w₁ h => ?_)))
    exact Ensures.bind (Ensures.reportRemoved _ fun events => Ensures.pure
      ((cleaned_of_swept (c := .cleanupAppScopeFontsByUser) h fun _ h => h).published events))
  | cleanupAppScopeFonts scope t =>
    refine Ensures.bind (Ensures.read hv (fun io hio => (hI io hio).1) (v.edit_getFontRecordsByAppId _)
      (Ensures.bind ((sweepRecords_exact hI (collect_placed hp) hv).mono fun _ w₁ h => ?_)))
    refine Ensures.bind (Ensures.reportRemoved _ fun events => Ensures.bind ?_)
    have hpublished : Swept u v w (RecordStore.collect (has Record.apps (makeAppIdentifier scope t))
        v.records) { w₁ with published := events } :=
      ⟨h.view, h.frame.step ⟨fun _ _ => rfl, rfl, rfl, rfl⟩, h.gone, h.same⟩
    exact deleteAppDir_exact hI hpublished fun w' hw' => Ensures.pure hw'
  | installFont env fd => cases hc
  | uninstallFont name => cases hc
  | installScopeFont env fd scope srcPath bundleName t => cases hc
  | uninstallScopeFont srcPath bundleName t => cases hc

end cleanup

theorem chosen_item {c : FontCall} {p : Json → Bool} (hc : selects c = some p) (r : Record) :
    p r.item = chosen c r := by
  cases c with
  | cleanupAppScopeFonts scope t =>
    obtain rfl := Option.some.inj hc
    exact r.ofApp_item _
  | cleanupScopeFontsByUser =>
    obtain rfl := Option.some.inj hc
    exact r.scopeWith_item _
  | cleanupAppScopeFontsByUser =>
    obtain rfl := Option.some.inj hc
    exact r.scopeWith_item _
  | installFont env fd => cases hc
  | uninstallFont name => cases hc
  | installScopeFont env fd scope srcPath bundleName t => cases hc
  | uninstallScopeFont srcPath bundleName t => cases hc

theorem chosen_congr {s : Slot} {r r' : Record} (h : r.PlacedAt s) (h' : r'.PlacedAt s)
    (c : FontCall) : chosen c r = chosen c r' := by
  have hid : r.appIdentifier = r'.appIdentifier := h.dir_eq.trans h'.dir_eq.symm
  have hscope := h.scope_eq h'
  cases c <;> simp [chosen, has, Record.apps, Record.inScope, hid, hscope]

theorem whole_chosen {u : Int} {w : World} {c : FontCall} {s : Slot} {r : Record}
    (h : r.PlacedAt s) (hw : Whole u w c s) : chosen c r = true := by
  cases c with
  | cleanupAppScopeFonts scope t => simp [chosen, Record.apps, h.dir_eq, hw.2]
  | _ => exact hw.elim

theorem whole_of_sweeps {u : Int} {w : World} {c : FontCall} {s : Slot} {r : Record}
    (h : r.PlacedAt s) (hq : chosen c r = true) (hsweeps : sweepsDirectory u w c = true) :
    Whole u w c s := by
  cases c with
  | cleanupAppScopeFonts scope t =>
    refine ⟨hsweeps, ?_⟩
    simpa [chosen, Record.apps, h.dir_eq] using hq
  | _ => exact absurd hsweeps (by simp [sweepsDirectory])

theorem sweeps_of_whole {u : Int} {w : World} {c : FontCall} {s : Slot} (hw : Whole u w c s) :
    sweepsDirectory u w c = true := by
  cases c with
  | cleanupAppScopeFonts scope t => exact hw.1
  | _ => exact hw.elim

section exactness

variable {u : Int} {v : View} {w w' : World} {c : FontCall} {p : Json → Bool}

theorem srcKey_of_mem (r : Record) : ∀ k ∈ r.urls, k = srcKey r := by
  intro k hk
  simp [srcKey, Option.mem_toList.mp hk]

theorem listed_cleaned (h : Cleaned u v w c w') :
    listed (w'.config u) =
      (eraseAll Record.urls ((v.records.filter (chosen c)).map srcKey) v.records).map Record.item := by
  rw [listed_shows h.view]
  cases v with
  | none => rfl
  | some rs => rfl

theorem srcKey_mem_urls {r s : Record} (h : s.srcPath.isSome = true) :
    srcKey s ∈ r.urls ↔ r.srcPath = s.srcPath := by
  obtain ⟨k, hk⟩ := Option.isSome_iff_exists.mp h
  rw [srcKey, hk, Record.urls, Option.mem_toList]
  rfl

theorem located_iff (r : Record) : srcKey r ∈ r.urls ↔ r.srcPath.isSome = true := by
  cases hs : r.srcPath <;> simp [Record.urls, srcKey, hs]

theorem fontlist_iff (hc : selects c = some p) (hv : v.Shows u w) (h : Cleaned u v w c w') :
    listed (w'.config u) = (listed (w.config u)).filter (fun item => !p item) ↔
      (∀ item ∈ listed (w.config u), p item = true → (stringItem item fontSrcPath).isSome = true) ∧
        (listed (w.config u)).Pairwise fun a b => p b = true →
          stringItem a fontSrcPath = stringItem b fontSrcPath → p a = true := by
  have hfilter := RecordStore.filter_items (p := fun item => !p item) (q := fun r => !chosen c r)
    (fun r => by rw [chosen_item hc]) v.records
  rw [listed_cleaned h, listed_shows hv, hfilter,
    (List.map_injective_iff.mpr fun _ _ => Record.item_injective).eq_iff,
    eraseAll_eq_filter_iff srcKey_of_mem, List.pairwise_map]
  simp only [List.forall_mem_map, chosen_item hc, Record.stringItem_fontSrcPath, located_iff]
  refine and_congr_right fun hlocated => List.Pairwise.iff_of_mem fun {r s} _ hs => ?_
  exact imp_congr_right fun hq => by rw [srcKey_mem_urls (hlocated s hs hq)]

theorem entry_realPath {s : Slot} (hs : s.Valid) : w.entry (realPath u s.sandbox) =
    w.tree.lookup (s.loc u) := by
  rw [World.entry, locate_realPath hs u]

theorem exact_iff (hc : selects c = some p) (hp : v.Placed) (hv : v.Shows u w)
    (h : Cleaned u v w c w') : Exact u w w' p ↔ Sweepable u w c p := by
  have placed : ∀ item ∈ listed (w.config u), ∀ path, stringItem item fontPath = some path →
      ∃ r ∈ v.records, ∃ s : Slot, r.PlacedAt s ∧ item = r.item ∧ path = s.sandbox := by
    intro item hitem path hpath
    rw [listed_shows hv] at hitem
    obtain ⟨r, hr, rfl⟩ := List.mem_map.mp hitem
    obtain ⟨s, hs⟩ := hp r hr
    rw [r.stringItem_fontPath] at hpath
    exact ⟨r, hr, s, hs, rfl, (Option.some.inj hpath).symm.trans hs.path⟩
  have kept : ∀ s : Slot, s.Valid → '\\' ∈ s.name → ¬ Whole u w c s →
      w'.tree.lookup (s.loc u) = w.tree.lookup (s.loc u) := fun s hs hb hw =>
    h.same s hs (fun _ _ _ _ => hb) hw
  constructor
  · intro hexact
    obtain ⟨located, leading⟩ := (fontlist_iff hc hv h).mp hexact.fontlist
    refine ⟨located, leading, fun item hitem hq path hpath hb => ?_⟩
    obtain ⟨r, hr, s, hs, rfl, rfl⟩ := placed item hitem path hpath
    rw [getFileName_sandbox hs.valid] at hb
    by_cases hw : Whole u w c s
    · exact Or.inr (sweeps_of_whole hw)
    · have hgone := hexact.removed _ hitem hq _ hpath
      rw [entry_realPath hs.valid, kept s hs.valid hb hw] at hgone
      rw [entry_realPath hs.valid]
      exact Or.inl hgone
  · intro hsweep
    refine ⟨(fontlist_iff hc hv h).mpr ⟨hsweep.located, hsweep.leading⟩,
      fun item hitem hq path hpath => ?_, fun item hitem hq path hpath => ?_⟩
    · have hrem := hsweep.removable item hitem hq path hpath
      obtain ⟨r, hr, s, hs, rfl, rfl⟩ := placed item hitem path hpath
      rw [chosen_item hc] at hq
      rw [getFileName_sandbox hs.valid, entry_realPath hs.valid] at hrem
      rw [entry_realPath hs.valid]
      by_cases hw : Whole u w c s
      · exact h.whole s hw
      · by_cases hb : '\\' ∈ s.name
        · rw [kept s hs.valid hb hw]
          exact (hrem hb).resolve_right fun hsweeps => hw (whole_of_sweeps hs hq hsweeps)
        · exact h.gone r hr hq s hs.valid hs.path hb
    · obtain ⟨r, hr, s, hs, rfl, rfl⟩ := placed item hitem path hpath
      rw [chosen_item hc] at hq
      rw [entry_realPath hs.valid, entry_realPath hs.valid]
      refine h.same s hs.valid (fun r' hr' hq' hpath' => ?_) fun hw => ?_
      · obtain ⟨s', hs'⟩ := hp r' hr'
        obtain rfl := sandbox_injective hs'.valid hs.valid (hs'.path.symm.trans hpath')
        rw [chosen_congr hs hs' c, hq'] at hq
        cases hq
      · rw [whole_chosen hs hw] at hq
        cases hq

end exactness

theorem reachable_placed {u : Int} {w : World} (h : w.config u = some emptyConfig)
    (es : List (FontCall × List Io)) :
    ∃ v : View, v.Placed ∧ v.Shows u ((FontCall.service u).after w es) := by
  have step : ∀ (w : World) (e : FontCall × List Io), (∃ v : View, v.Placed ∧ v.Shows u w) →
      ∃ v : View, v.Placed ∧ v.Shows u ((FontCall.service u).complete w e).2 := by
    rintro w e ⟨v, hp, hv⟩
    obtain ⟨v', hv', heffect⟩ :=
      FontCall.complete_unchecked hp hv e.1 e.2
    exact ⟨v', heffect.placed hp, hv'⟩
  exact Service.after_invariant step ⟨some [], by simp [View.Placed, View.records], shows_empty h⟩ es

theorem cleanup_exact_when {u : Int} {w : World} {c : FontCall} {p : Json → Bool}
    (es : List (FontCall × List Io)) (ios : List Io) (h : w.config u = some emptyConfig)
    (hc : selects c = some p) (hios : ∀ io ∈ ios, Undisturbed io) :
    Exact u ((FontCall.service u).after w es)
        ((FontCall.service u).complete ((FontCall.service u).after w es) (c, ios)).2 p ↔
      Sweepable u ((FontCall.service u).after w es) c p := by
  obtain ⟨v, hp, hv⟩ := reachable_placed h es
  exact exact_iff hc hp hv (Program.run_of_wp semantics Undisturbed ⟨rfl, rfl⟩
    (cleanup_exact (fun _ hio => hio) hc hp hv) hios)

section ghost

def sessionFont (srcPath : Str) : FontCall × List Io :=
  (.installScopeFont (Sample.noon 0) (Sample.sourceFont "A".toList 1) fontScopeSession srcPath
    "bundle".toList 5, [])

theorem cleanup_leaves_ghost :
    ¬ ∀ (u : Int) (w : World) (es : List (FontCall × List Io)) (c : FontCall) (p : Json → Bool)
      (ios : List Io), w.config u = some emptyConfig → selects c = some p →
      (∀ io ∈ ios, Undisturbed io) →
      Exact u ((FontCall.service u).after w es)
        ((FontCall.service u).complete ((FontCall.service u).after w es) (c, ios)).2 p := by
  intro h
  have hexact := h 100 (.provisioned [100]) [sessionFont []] .cleanupScopeFontsByUser _ [] rfl rfl
    (by simp)
  have hlength := congrArg List.length hexact.fontlist
  exact absurd hlength (by decide)

def systemFont : FontCall × List Io :=
  (.installFont (Sample.noon 0) (Sample.sourceFont "B".toList 2), [])

def installs : List (FontCall × List Io) := [systemFont, sessionFont "/a".toList]

-- The font of InstallFont stays.
theorem cleanup_exact_located :
    Exact 100 ((FontCall.service 100).after (.provisioned [100]) installs)
      ((FontCall.service 100).complete ((FontCall.service 100).after (.provisioned [100]) installs)
        (.cleanupScopeFontsByUser, [])).2 (scopeWith (· ≥ 0)) :=
  (cleanup_exact_when installs [] rfl rfl (by simp)).mpr ⟨by decide, by decide, by decide⟩

end ghost

end ScopeCleanup
