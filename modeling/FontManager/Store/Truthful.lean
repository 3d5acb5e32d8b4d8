import FontManager.Interaction.Execution
import FontManager.Store.Removals

open FontDefine FontManagerUtils FontLocation Interaction KeyedList

-- Rules for answers that depend on the operation: ok says which answer each operation may get.
abbrev Obeys {α : Type} (ok : World → Op → Io → Prop) (p : FontTask α) (Q : α → World → Prop)
    (w : World) : Prop := Program.Upholds semantics ok (fun _ => True) p Q w

def Io.whole (io : Io) : Prop := io.write = .complete ∨ io.write = .openFails

structure Truthful (ok : World → Op → Io → Prop) : Prop where
  sees : ∀ {w path io}, ok w (.file (.exists path)) io → io.ok = true
  whole : ∀ {w u op io}, ok w (.config u op) io → io.whole

namespace Obeys

variable {α β : Type} {ok : World → Op → Io → Prop} {w : World} {u : Int} {v : View}

theorem pure {Q : α → World → Prop} {a : α} (h : Q a w) : Obeys ok (Pure.pure a) Q w := ⟨trivial, h⟩

theorem bind {p : FontTask α} {f : α → FontTask β} {Q : β → World → Prop}
    (h : Obeys ok p (fun a => Obeys ok (f a) Q) w) : Obeys ok (p >>= f) Q w :=
  Program.Upholds.bind h

theorem mono {Q R : α → World → Prop} {p : FontTask α} (h : Obeys ok p Q w)
    (hQR : ∀ a w, Q a w → R a w) : Obeys ok p R w :=
  Program.Upholds.mono h (fun _ h => h) fun a w _ => hQR a w

theorem perform {o : Op} {Q : o.Reply → World → Prop}
    (h : ∀ io, ok w o io → Q (w.exec o io).1 (w.exec o io).2) :
    Obeys ok (Program.perform (P := sig) o) Q w := ⟨trivial, fun io hio => ⟨trivial, h io hio⟩⟩

theorem config (hv : v.Shows u w) {op : ConfigOp} {Q : op.Reply → World → Prop}
    (h : ∀ io w', ok w (.config u op) io → Frame (· = configLoc u) w w' →
      (v.step op io).2.Shows u w' → Q (v.step op io).1 w') :
    Obeys ok (FontManager.config u op) Q w := by
  refine perform fun io hio => ?_
  obtain ⟨hreply, hshows⟩ := View.execConfig_shows hv op io
  have hq := h io _ hio (World.execConfig_frame w u op io) hshows
  rw [← hreply] at hq
  exact hq

theorem query (hv : v.Shows u w) {op : ConfigOp} {r : op.Reply} (hr : v.edit op = .keep r)
    {Q : op.Reply → World → Prop}
    (hunread : ∀ io, ok w (.config u op) io → io.ok = false → Q op.failure w) (h : Q r w) :
    Obeys ok (FontManager.config u op) Q w := by
  refine perform fun io hio => ?_
  show Q (w.execConfig u op io).1 (w.execConfig u op io).2
  cases hread : io.ok with
  | false =>
    rw [World.execConfig_unreadable hread]
    exact hunread io hio hread
  | true =>
    rw [World.execConfig_readable hread, View.edit_shows hv, hr]
    exact h

theorem read (hv : v.Shows u w) {op : ConfigOp}
    (hread : ∀ io, ok w (.config u op) io → io.ok = true) {r : op.Reply} (hr : v.edit op = .keep r)
    {Q : op.Reply → World → Prop} (h : Q r w) : Obeys ok (FontManager.config u op) Q w := by
  refine query hv hr (fun io hio hfalse => ?_) h
  rw [hread io hio] at hfalse
  cases hfalse

theorem answered (hv : v.Shows u w) {op : ConfigOp} {r : op.Reply} (hr : v.edit op = .keep r)
    {Q : op.Reply → World → Prop} (h : ∀ r, Q r w) : Obeys ok (FontManager.config u op) Q w :=
  query hv hr (fun _ _ _ => h _) (h _)

theorem publishFontUpdate {type : FontEventType} {name : Str} {Q : Unit → World → Prop}
    (h : ∀ events, Q () { w with published := events }) :
    Obeys ok (FontManager.publishFontUpdate type name u) Q w := perform fun _ _ => h _

theorem weaklyCanonical {path : Str} {Q : Option Str → World → Prop} (hnone : Q none w)
    (hsome : Q (some (lexicallyNormal path)) w) : Obeys ok (weaklyCanonical path) Q w := by
  refine perform fun io _ => ?_
  show Q (if io.ok then some (lexicallyNormal path) else none) w
  split
  · exact hsome
  · exact hnone

theorem removeAll {path : Str} {Q : Bool → World → Prop}
    (h : ∀ b w', Frame (locate path <+: ·) w w' →
      (b = true → w'.tree = w.tree.prune (locate path)) → Q b w') : Obeys ok (removeAll path) Q w := by
  refine perform fun io _ => h _ _ (World.execFile_frame w io (.removeAll path)) fun hb => ?_
  change (w.removeAll path io).1 = true at hb
  show (w.removeAll path io).2.tree = _
  by_cases hio : io.ok = true
  · simp [World.removeAll, hio]
  · simp [World.removeAll, hio] at hb

section files

variable (hok : Truthful ok)

include hok

theorem checkPathExist {path : Str} (hp : path ≠ []) {Q : Bool → World → Prop}
    (h : Q (w.pathExists path) w) : Obeys ok (checkPathExist path) Q w := by
  refine perform fun io hio => ?_
  show Q (path ≠ [] && io.ok && w.pathExists path) w
  simpa [hp, hok.sees hio] using h

theorem removeFile {path : Str} (hp : path ≠ []) {Q : Bool → World → Prop}
    (hmissing : w.pathExists path = false → Q true w)
    (h : w.pathExists path = true → ∀ b w', Frame (locate path <+: ·) w w' →
      (b = true → w'.tree = w.tree.prune (locate path)) → Q b w') :
    Obeys ok (removeFile path) Q w := by
  refine bind (checkPathExist hok hp ?_)
  cases he : w.pathExists path with
  | false => exact pure (hmissing he)
  | true => exact removeAll (h he)

theorem removeIfExists {path : Str} (hp : path ≠ []) {Q : Bool → World → Prop}
    (hmissing : w.pathExists path = false → Q true w)
    (h : w.pathExists path = true → ∀ b w', Frame (locate path <+: ·) w w' →
      (b = true → w'.tree = w.tree.prune (locate path)) → Q b w') :
    Obeys ok (FontManager.removeIfExists path) Q w := by
  unfold FontManager.removeIfExists
  rw [if_neg hp]
  refine bind (checkPathExist hok hp ?_)
  cases he : w.pathExists path with
  | false => exact pure (hmissing he)
  | true => exact removeFile hok hp (fun hne => by simp [he] at hne) h

end files

-- A path of a record leads to its slot, or to nothing when it is refused.
theorem resolve {s : Slot} (hs : s.Valid) {Q : Str → World → Prop} (hnil : Q [] w)
    (hpath : Q (joinPath (s.loc u)) w) :
    Obeys ok (FontManager.validateAndResolveRealPath (installPath u) s.sandbox) Q w := by
  have hnormal : lexicallyNormal (FontManager.sandBoxPathToRealPath (installPath u) s.sandbox) =
      joinPath (s.loc u) :=
    lexicallyNormal_of_locate (locate_realPath hs u) (by simp [Slot.loc, Slot.sub])
  unfold FontManager.validateAndResolveRealPath
  split
  · exact pure hnil
  · refine bind (weaklyCanonical (pure hnil) ?_)
    rw [hnormal]
    refine bind (weaklyCanonical (pure hnil) ?_)
    simp only [installDir_leads, if_true]
    exact pure hpath

end Obeys
