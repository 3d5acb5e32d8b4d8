import FontManager.Interaction.Sequence

namespace Interaction

structure Ideal (L α S : Type) where
  admits : S → L → Prop
  reply : S → L → α
  next : S → L → S

namespace Ideal

variable {L α S : Type} (o : Ideal L α S)

def after (s : S) (cs : List L) : S := cs.foldl o.next s

def replies : S → List L → List α
  | _, [] => []
  | s, c :: cs => o.reply s c :: replies (o.next s c) cs

def Admitted : S → List L → Prop
  | _, [] => True
  | s, c :: cs => o.admits s c ∧ Admitted (o.next s c) cs

instance decidableAdmitted [∀ s c, Decidable (o.admits s c)] :
    ∀ (s : S) (cs : List L), Decidable (o.Admitted s cs)
  | _, [] => instDecidableTrue
  | s, c :: cs =>
    have := decidableAdmitted (o.next s c) cs
    inferInstanceAs (Decidable (_ ∧ _))

theorem Admitted.invariant {o : Ideal L α S} {inv : S → Prop}
    (step : ∀ s c, inv s → o.admits s c → inv (o.next s c)) {s : S} {cs : List L}
    (h : o.Admitted s cs) (hs : inv s) : inv (o.after s cs) := by
  induction cs generalizing s with
  | nil => exact hs
  | cons c cs ih => exact ih h.2 (step s c hs h.1)

end Ideal

variable {P : PFunctor.{0, 0}} {L α W Φ S : Type} [Inhabited Φ]

def Service.replies (v : Service P L α W Φ) : W → List (L × List Φ) → List α
  | _, [] => []
  | w, e :: es => (v.complete w e).1 :: replies v (v.complete w e).2 es

structure Refinement (v : Service P L α W Φ) (I : Φ → Prop) (o : Ideal L α S) (rel : S → W → Prop) :
    Prop where
  fault : I default
  call : ∀ {s w c}, rel s w → o.admits s c →
    Program.wp v.semantics (fun _ _ => I) (v.program c) (fun a w' => a = o.reply s c ∧ rel (o.next s c) w') w

namespace Refinement

variable {v : Service P L α W Φ} {I : Φ → Prop} {o : Ideal L α S} {rel : S → W → Prop}

theorem complete (r : Refinement v I o rel) {s : S} {w : W} {e : L × List Φ} (h : rel s w)
    (hadmits : o.admits s e.1) (hios : ∀ io ∈ e.2, I io) :
    (v.complete w e).1 = o.reply s e.1 ∧ rel (o.next s e.1) (v.complete w e).2 :=
  Program.run_of_wp v.semantics I r.fault (r.call h hadmits) hios

theorem sequence (r : Refinement v I o rel) {s : S} {w : W} {es : List (L × List Φ)}
    (h : rel s w) (hadmitted : o.Admitted s (es.map Prod.fst))
    (hios : ∀ e ∈ es, ∀ io ∈ e.2, I io) :
    v.replies w es = o.replies s (es.map Prod.fst) ∧
      rel (o.after s (es.map Prod.fst)) (v.after w es) := by
  induction es generalizing s w with
  | nil => exact ⟨rfl, h⟩
  | cons e es ih =>
    obtain ⟨hadmits, hrest⟩ := hadmitted
    obtain ⟨hreply, hnext⟩ := r.complete h hadmits (hios e List.mem_cons_self)
    obtain ⟨hreplies, hafter⟩ := ih hnext hrest fun d hd => hios d (List.mem_cons_of_mem e hd)
    constructor
    · rw [Service.replies, hreply, hreplies]
      rfl
    · exact hafter

end Refinement

end Interaction
