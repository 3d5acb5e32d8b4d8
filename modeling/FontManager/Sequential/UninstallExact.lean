import FontManager.Sequential.UninstallInverse
import FontManager.Store.Truthful

open FontDefine FontManagerUtils FontLocation FontConfig StoreInvariant ScopeCleanup UninstallInverse
  Interaction KeyedList CJson

namespace UninstallExact

def sees (_ : World) : Op → Io → Prop
  | .file (.exists _), io => io.ok = true
  | .config _ _, io => io.whole
  | _, _ => True

structure Removes (u : Int) (w w' : World) (name : Str) (front : List Json) (item : Json)
    (back : List Json) (path : Str) : Prop where
  before : listed (w.config u) = front ++ item :: back
  after : listed (w'.config u) = front ++ back
  found : named name item = true
  first : ∀ other ∈ front, named name other = false
  unscoped : numberItem item fontScope = none
  located : stringItem item fontPath = some path
  gone : w'.entry (realPath u path) = none
  others : ∀ other ∈ front ++ back, ∀ p, stringItem other fontPath = some p →
    w'.entry (realPath u p) = w.entry (realPath u p)

structure Taken (u : Int) (v : View) (w : World) (r : Record) (s : Slot) (w' : World) : Prop where
  view : View.Shows u (v.map (List.eraseP (has Record.paths r.fontPath))) w'
  frame : Frame (fun l => s.loc u <+: l ∨ l = configLoc u) w w'
  gone : w'.tree.lookup (s.loc u) = none

def Found (u : Int) (v : View) (w : World) (name : Str) (code : FontErrorCode) (w' : World) : Prop :=
  code = .ok → ∃ r s, v.records.find? (has Record.fullNames name) = some r ∧ r.PlacedAt s ∧
    s.dir = none ∧ Taken u v w r s w'

section uninstall

variable {ok : World → Op → Io → Prop} {u : Int} {v : View} {w : World} {name : Str}

theorem refused {code : FontErrorCode} {w' : World} (h : code ≠ .ok) : Found u v w name code w' :=
  fun hok => absurd hok h

theorem deleteRecord (hok : Truthful ok) (hv : v.Shows u w) {r : Record} {s : Slot}
    (hf : v.records.find? (has Record.fullNames name) = some r) (hs : r.PlacedAt s)
    (hdir : s.dir = none) {w₁ : World} (h₁ : Frame (s.loc u <+: ·) w w₁)
    (hgone : w₁.tree.lookup (s.loc u) = none) :
    Obeys ok (FontManager.config u (.deleteFontRecord s.sandbox) >>= fun deleted : Bool =>
      if deleted then do
        FontManager.publishFontUpdate .uninstall name u
        pure .ok
      else pure .uninstallFail) (Found u v w name) w₁ := by
  have hv₁ := hv.frame h₁ (configLoc_not_loc hs.valid)
  refine Obeys.bind (Obeys.config hv₁ fun io w₂ hio h₂ hv₂ => ?_)
  rw [← hs.path] at hv₂ ⊢
  cases hread : io.ok with
  | false =>
    rw [View.step_unreadable hread]
    exact Obeys.pure (refused (by simp))
  | true => ?_
  rcases hok.whole hio with hwrite | hwrite
  · rw [step_deleteFontRecord_exact (List.mem_of_find?_eq_some hf) hread hwrite] at hv₂ ⊢
    refine Obeys.bind (Obeys.publishFontUpdate fun events => Obeys.pure fun _ => ?_)
    refine ⟨r, s, hf, hs, hdir, ?_⟩
    have hconfig : s.loc u ≠ configLoc u := fun he =>
      configLoc_not_loc hs.valid (FileTree.prefix_of_eq he)
    exact ⟨hv₂, (h₁.trans h₂).step ⟨fun _ _ => rfl, rfl, rfl, rfl⟩, (h₂.tree _ hconfig).trans hgone⟩
  · have hreply : (v.step (.deleteFontRecord r.fontPath) io).1 = false := by
      rw [View.step_readable hread, hwrite]
      cases v with
      | none => rfl
      | some rs =>
        simp only [View.edit, RecordStore.edit, RecordStore.deleteFirst]
        split <;> rfl
    rw [hreply]
    exact Obeys.pure (refused (by simp))

theorem uninstallFont (hok : Truthful ok) (hp : v.Placed) (hv : v.Shows u w) :
    Obeys ok (FontManager.uninstallFont name u) (Found u v w name) w := by
  unfold FontManager.uninstallFont
  split
  · exact Obeys.pure (refused (by simp))
  · refine Obeys.bind (Obeys.query hv (v.edit_getFontRecordByName name)
      (fun _ _ _ => Obeys.pure (refused (by simp))) ?_)
    rw [RecordStore.findInfo]
    cases hf : v.records.find? (has Record.fullNames name) with
    | none => exact Obeys.pure (refused (by simp))
    | some r =>
      obtain ⟨s, hs⟩ := hp r (List.mem_of_find?_eq_some hf)
      rw [Option.map_some]
      dsimp only
      split
      · exact Obeys.pure (refused (by simp))
      · rename_i hscope
        have hdir : s.dir = none := by
          by_contra hdir
          exact hscope (Or.inr ((scope_of_dir hs).mpr hdir))
        have hpath : r.info.fontPath = s.sandbox := hs.path
        have hloc : locate (joinPath (s.loc u)) = s.loc u := locate_joinPath (loc_plain hs.valid u)
        rw [hpath]
        refine Obeys.bind (Obeys.resolve hs.valid ?_ ?_)
        · exact Obeys.pure (refused (by simp))
        · rw [if_neg (joinPath_loc_ne u s)]
          refine Obeys.bind (Obeys.removeIfExists hok (joinPath_loc_ne u s) (fun hmissing => ?_)
            fun _ b w₁ h₁ hpruned => ?_)
          · rw [World.pathExists, World.entry, hloc, Option.isSome_eq_false_iff,
              Option.isNone_iff_eq_none] at hmissing
            exact deleteRecord hok hv hf hs hdir (.refl _ w) hmissing
          · rw [hloc] at h₁ hpruned
            cases b with
            | false => exact Obeys.pure (refused (by simp))
            | true =>
              refine deleteRecord hok hv hf hs hdir h₁ ?_
              rw [hpruned rfl, FileTree.lookup_prune, if_pos List.prefix_rfl]

end uninstall

section others

variable {u : Int} {v : View} {w w' : World} {name : Str} {r : Record} {s : Slot}
  {front back : List Record}

theorem other_slot {q : Record} {t : Slot} (ha : Apart userPaths (front ++ r :: back))
    (hr : r.PlacedAt s) (hs : s.dir = none) (hq : q ∈ front ++ back) (ht : q.PlacedAt t) : s ≠ t := by
  rintro rfl
  have hmem : ∀ {q : Record}, q.PlacedAt s → s.sandbox ∈ userPaths q := fun hq => by
    rw [userPaths, if_pos (hq.dir_eq.trans hs), hq.path]
    exact List.mem_cons_self
  exact ha.others hq (hmem hr) (hmem ht)

theorem removes_of_taken (hp : v.Placed) (ha : Apart userPaths v.records) (hv : v.Shows u w)
    (hf : v.records.find? (has Record.fullNames name) = some r) (hr : r.PlacedAt s)
    (hs : s.dir = none) (h : Taken u v w r s w') :
    ∃ front back path, Removes u w w' name front r.item back path := by
  obtain ⟨hname, front, back, hrecords, hfirst⟩ := List.find?_eq_some_iff_append.mp hf
  rw [hrecords] at ha
  have hplaced : ∀ q ∈ front ++ back, ∃ t, q.PlacedAt t := fun q hq =>
    hp q (hrecords ▸ List.mem_append.mpr ((List.mem_append.mp hq).imp_right (List.mem_cons_of_mem r)))
  have hother : ∀ q ∈ front, ¬ has Record.paths r.fontPath q = true := fun q hq hkey => by
    obtain ⟨t, ht⟩ := hplaced q (List.mem_append_left back hq)
    simp only [has_iff, Record.paths, List.mem_singleton] at hkey
    refine other_slot ha hr hs (List.mem_append_left back hq) ht ?_
    exact sandbox_injective hr.valid ht.valid (hr.path.symm.trans (hkey.trans ht.path))
  have hloc : ∀ {q : Record} {t : Slot}, q.PlacedAt t → locate (realPath u q.fontPath) = t.loc u :=
    fun ht => by rw [ht.path, locate_realPath ht.valid]
  refine ⟨front.map Record.item, back.map Record.item, r.fontPath, ?_, ?_, ?_, ?_, ?_,
    r.stringItem_fontPath, ?_, ?_⟩
  · rw [listed_shows hv, hrecords, List.map_append, List.map_cons]
  · obtain ⟨rs, rfl⟩ : ∃ rs, v = some rs := by
      cases v with
      | none => cases hf
      | some rs => exact ⟨rs, rfl⟩
    obtain rfl : rs = front ++ r :: back := hrecords
    rw [listed_shows h.view, Option.map_some, View.records, Option.getD_some,
      List.eraseP_append_right _ hother, List.eraseP_cons_of_pos (by simp [Record.paths]),
      List.map_append]
  · rw [Record.named_item]
    exact hname
  · intro other hmem
    obtain ⟨q, hq, rfl⟩ := List.mem_map.mp hmem
    rw [Record.named_item]
    simpa using hfirst q hq
  · rcases hr.owner with ⟨hscope, -, -⟩ | ⟨_, _, -, -, -, hdir⟩
    · rw [r.numberItem_fontScope, hscope, Option.map_none]
    · cases hs.symm.trans hdir
  · rw [World.entry, hloc hr]
    exact h.gone
  · intro other hmem p hpath
    rw [← List.map_append] at hmem
    obtain ⟨q, hq, rfl⟩ := List.mem_map.mp hmem
    obtain rfl := Option.some.inj (q.stringItem_fontPath.symm.trans hpath)
    obtain ⟨t, ht⟩ := hplaced q hq
    rw [World.entry, World.entry, hloc ht]
    refine h.frame.tree _ (not_or.mpr ⟨fun hl => ?_, fun he => ?_⟩)
    · exact other_slot ha hr hs hq ht (loc_leads hr.valid ht.valid hl).2
    · exact configLoc_not_loc ht.valid (FileTree.prefix_of_eq he)

end others

theorem sees_truthful : Truthful sees := ⟨fun h => h, fun h => h⟩

theorem uninstall_removes_found {u : Int} {w w' : World} {name : Str}
    (es : List (FontCall × List Io)) (ios : List Io) (h : w.config u = some emptyConfig)
    (hios : Program.Along semantics sees (FontManager.uninstallFont name u)
      ((FontCall.service u).after w es) ios)
    (hrun : (FontCall.service u).complete ((FontCall.service u).after w es)
      (.uninstallFont name, ios) = (.ok, w')) :
    ∃ front item back path,
      Removes u ((FontCall.service u).after w es) w' name front item back path := by
  obtain ⟨v, hp, ha, hv⟩ := reachable_userPaths h es
  have hfound := ((uninstallFont sees_truthful hp hv).run hios).2
  change Found u v _ name ((FontCall.service u).complete _ (.uninstallFont name, ios)).1
    ((FontCall.service u).complete _ (.uninstallFont name, ios)).2 at hfound
  rw [hrun] at hfound
  obtain ⟨r, s, hf, hr, hs, htaken⟩ := hfound rfl
  obtain ⟨front, back, path, hremoves⟩ := removes_of_taken hp ha hv hf hr hs htaken
  exact ⟨front, r.item, back, path, hremoves⟩

section unseen

theorem sees_default (w : World) (o : Op) : sees w o default := by
  cases o with
  | config u op => exact Or.inl rfl
  | file op => cases op <;> first | exact rfl | trivial
  | _ => trivial

def unseen : List Io := [{}, {}, {}, { ok := false }]

def kept : World :=
  ((FontCall.service 100).complete (installed "/data/a.ttf") (.uninstallFont "A".toList, unseen)).2

set_option maxRecDepth 4000 in
theorem unseen_file_kept :
    ¬ ∀ (u : Int) (w w' : World) (name : Str) (es : List (FontCall × List Io)) (ios : List Io),
      w.config u = some emptyConfig → (∀ io ∈ ios, io.whole) →
      (FontCall.service u).complete ((FontCall.service u).after w es) (.uninstallFont name, ios) =
        (.ok, w') →
      ∃ front item back path,
        Removes u ((FontCall.service u).after w es) w' name front item back path := by
  intro h
  have hwhole : ∀ io ∈ unseen, io.whole := fun io hio => by
    simp only [unseen, List.mem_cons, List.not_mem_nil, or_false] at hio
    rcases hio with rfl | rfl | rfl | rfl <;> exact Or.inl rfl
  obtain ⟨front, item, back, path, hremoves⟩ := h 100 (.provisioned [100]) kept "A".toList
    [install "/data/a.ttf"] unseen rfl hwhole (Prod.ext (by decide) rfl)
  have hlisted : listed ((installed "/data/a.ttf").config 100) = [storedItem "/data/a.ttf"] := rfl
  have hitem : item ∈ [storedItem "/data/a.ttf"] := hlisted ▸ hremoves.before ▸
    List.mem_append_right _ List.mem_cons_self
  obtain rfl := List.mem_singleton.mp hitem
  have hpath : stringItem (storedItem "/data/a.ttf") fontPath = some (storedPath "/data/a.ttf") := by
    decide
  obtain rfl := Option.some.inj (hpath.symm.trans hremoves.located)
  have hgone : (kept.entry (realPath 100 (storedPath "/data/a.ttf"))).isSome = false := by
    rw [hremoves.gone]
    rfl
  exact absurd hgone (by decide)

set_option maxRecDepth 4000 in
theorem seen_file_removed :
    ∃ front item back path, Removes 100 (installed "/data/a.ttf") (removed "/data/a.ttf") "A".toList
      front item back path :=
  uninstall_removes_found [install "/data/a.ttf"] [] rfl
    (Program.Along.of_forall (fun _ hio w o => List.mem_singleton.mp hio ▸ sees_default w o) _ _)
    (Prod.ext (by decide) rfl)

end unseen

end UninstallExact
