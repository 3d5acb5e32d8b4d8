import FontManager.Source.CopyLoop
import FontManager.Source.World

open FontManagerUtils

namespace CopyLoop

section outcomes

def SendFile.Fails (o : SendFile) : Prop := o = .error ∨ o = .zero

def SendFile.count : SendFile → Nat
  | .sent ret => ret
  | _ => 0

def total : List SendFile → Nat
  | [] => 0
  | o :: rest => o.count + total rest

theorem total_cons (o : SendFile) (rest : List SendFile) :
    total (o :: rest) = o.count + total rest := rfl

-- A count is from 1 up to the requested one; nothing is asked of the answers after the loop.
def Possible : Nat → List SendFile → Prop
  | _, [] => True
  | 0, _ :: _ => True
  | remaining, .interrupted :: rest => Possible remaining rest
  | remaining, .sent ret :: rest => 1 ≤ ret ∧ ret ≤ remaining ∧ Possible (remaining - ret) rest
  | _, _ :: _ => True

instance Possible.decidable : ∀ remaining outcomes, Decidable (Possible remaining outcomes)
  | _, [] => isTrue trivial
  | 0, _ :: _ => isTrue trivial
  | n + 1, .interrupted :: rest => Possible.decidable (n + 1) rest
  | _ + 1, .sent _ :: rest =>
    @instDecidableAnd _ _ inferInstance
      (@instDecidableAnd _ _ inferInstance (Possible.decidable _ rest))
  | _ + 1, .error :: _ => isTrue trivial
  | _ + 1, .zero :: _ => isTrue trivial

def FailsEarly (remaining : Nat) (outcomes : List SendFile) : Prop :=
  ∃ front o back, outcomes = front ++ o :: back ∧ o.Fails ∧ total front < remaining

variable {remaining : Nat} {rest : List SendFile}

theorem not_failsEarly_nil : ¬ FailsEarly remaining [] := by
  rintro ⟨front, o, back, h, -⟩
  simp at h

theorem failsEarly_cons {o : SendFile} :
    FailsEarly remaining (o :: rest) ↔
      (o.Fails ∧ 0 < remaining) ∨ FailsEarly (remaining - o.count) rest := by
  constructor
  · rintro ⟨front, o', back, h, hfails, hbefore⟩
    cases front with
    | nil =>
      obtain ⟨rfl, -⟩ := List.cons.inj h
      exact .inl ⟨hfails, hbefore⟩
    | cons x front =>
      obtain ⟨rfl, rfl⟩ := List.cons.inj h
      refine .inr ⟨front, o', back, rfl, hfails, ?_⟩
      rw [total_cons] at hbefore
      omega
  · rintro (⟨hfails, hpos⟩ | ⟨front, o', back, rfl, hfails, hbefore⟩)
    · exact ⟨[], o, rest, rfl, hfails, hpos⟩
    · refine ⟨o :: front, o', back, rfl, hfails, ?_⟩
      rw [total_cons]
      omega

theorem not_failsEarly_zero {outcomes : List SendFile} : ¬ FailsEarly 0 outcomes := by
  rintro ⟨front, o, back, -, -, h⟩
  exact absurd h (by omega)

end outcomes

section loop

variable {source : List UInt8} {s : CopyState} {outcomes : List SendFile} {run : CopyRun}

-- The kernel's offset, the loop's counter and the target's length are the same number.
structure InStep (source : List UInt8) (s : CopyState) : Prop where
  offset : s.offset = s.bytesSent
  target : s.target = source.take s.bytesSent
  bound : s.bytesSent ≤ source.length

theorem InStep.advance (h : InStep source s) {ret : Nat} (hret : ret ≤ source.length - s.bytesSent) :
    InStep source (s.advance source ret) where
  offset := congrArg (· + ret) h.offset
  target := by
    show s.target ++ (source.drop s.offset).take ret = source.take (s.bytesSent + ret)
    rw [h.target, h.offset, ← List.take_add]
  bound := by
    have := h.bound
    show s.bytesSent + ret ≤ source.length
    omega

theorem InStep.target_ne (h : InStep source s) (hlt : s.bytesSent < source.length) :
    s.target ≠ source := by
  intro he
  have hlen := congrArg List.length (h.target.symm.trans he)
  rw [List.length_take] at hlen
  omega

theorem InStep.target_eq (h : InStep source s) (hge : ¬ s.bytesSent < source.length) :
    s.target = source := by rw [h.target, List.take_of_length_le (by omega)]

@[simp] theorem CopyRun.after_returned (r : SendRequest) (run : CopyRun) :
    (run.after r).returned = run.returned := rfl

structure Exact (source : List UInt8) (remaining : Nat) (outcomes : List SendFile) (run : CopyRun) :
    Prop where
  requests : ∀ r ∈ run.requests, InStep source r.state ∧ 0 < r.count ∧
    r.state.offset + r.count = source.length
  copied : run.target <+: source
  failed : run.returned = some false ↔ FailsEarly remaining outcomes
  done : run.returned = some true ↔ run.target = source
  pending : run.returned = none ↔ ¬ FailsEarly remaining outcomes ∧ total outcomes < remaining

namespace Exact

theorem after {remaining : Nat} {o : SendFile} {rest : List SendFile} {r : SendRequest}
    (hr : InStep source r.state ∧ 0 < r.count ∧ r.state.offset + r.count = source.length)
    (ho : ¬ o.Fails) (hcount : o.count ≤ remaining)
    (h : Exact source (remaining - o.count) rest run) :
    Exact source remaining (o :: rest) (run.after r) where
  requests := List.forall_mem_cons.mpr ⟨hr, h.requests⟩
  copied := h.copied
  failed := by simpa [failsEarly_cons, ho] using h.failed
  done := h.done
  pending := by
    have htotal : total (o :: rest) < remaining ↔ total rest < remaining - o.count := by
      rw [total_cons]
      omega
    simpa [failsEarly_cons, ho, htotal] using h.pending

theorem failing {remaining : Nat} {o : SendFile} {rest : List SendFile} {r : SendRequest}
    (hr : InStep source r.state ∧ 0 < r.count ∧ r.state.offset + r.count = source.length)
    (ho : o.Fails) (hpos : 0 < remaining) :
    Exact source remaining (o :: rest)
      (CopyRun.after r ⟨[], r.state.target, some false⟩) where
  requests := List.forall_mem_cons.mpr ⟨hr, by simp⟩
  copied := hr.1.target ▸ List.take_prefix _ _
  failed := iff_of_true rfl (failsEarly_cons.mpr (.inl ⟨ho, hpos⟩))
  done := iff_of_false (by simp [CopyRun.after]) (hr.1.target_ne (by have := hr.1.offset; omega))
  pending := iff_of_false (by simp [CopyRun.after]) fun h =>
    h.1 (failsEarly_cons.mpr (.inl ⟨ho, hpos⟩))

theorem ended (h : InStep source s) (hge : ¬ s.bytesSent < source.length) :
    Exact source (source.length - s.bytesSent) outcomes ⟨[], s.target, some true⟩ := by
  have hzero : source.length - s.bytesSent = 0 := by omega
  rw [hzero]
  exact ⟨by simp, h.target ▸ List.take_prefix _ _, iff_of_false (by simp) not_failsEarly_zero,
    iff_of_true rfl (h.target_eq hge), iff_of_false (by simp) fun hlt => absurd hlt.2 (by omega)⟩

end Exact

theorem sendLoop_exact (h : InStep source s)
    (hp : Possible (source.length - s.bytesSent) outcomes) :
    Exact source (source.length - s.bytesSent) outcomes
      (sendLoop source source.length s outcomes) := by
  induction outcomes generalizing s with
  | nil =>
    unfold sendLoop
    by_cases hlt : s.bytesSent < source.length
    · rw [if_pos hlt]
      exact ⟨by simp, h.target ▸ List.take_prefix _ _,
        iff_of_false (by simp) not_failsEarly_nil, iff_of_false (by simp) (h.target_ne hlt),
        iff_of_true rfl ⟨not_failsEarly_nil, by simpa [total] using Nat.sub_pos_of_lt hlt⟩⟩
    · rw [if_neg hlt]
      exact .ended h hlt
  | cons o rest ih =>
    unfold sendLoop
    by_cases hlt : s.bytesSent < source.length
    · obtain ⟨n, hn⟩ := Nat.exists_eq_add_one.mpr (Nat.sub_pos_of_lt hlt)
      have hr : InStep source s ∧ 0 < source.length - s.bytesSent ∧
          s.offset + (source.length - s.bytesSent) = source.length :=
        ⟨h, by omega, by have := h.offset; omega⟩
      rw [if_pos hlt]
      cases o with
      | interrupted =>
        refine .after hr (by simp [SendFile.Fails]) (Nat.zero_le _) (ih h ?_)
        rw [hn] at hp ⊢
        exact hp
      | error => exact .failing hr (.inl rfl) (by omega)
      | zero => exact .failing hr (.inr rfl) (by omega)
      | sent ret =>
        rw [hn] at hp
        obtain ⟨hpos, hle, hrest⟩ := hp
        rw [← hn] at hle hrest
        have hnext : source.length - s.bytesSent - ret =
            source.length - (s.advance source ret).bytesSent := Nat.sub_sub _ _ _
        refine .after hr (by simp [SendFile.Fails]) hle ?_
        rw [SendFile.count, hnext]
        exact ih (h.advance hle) (hnext ▸ hrest)
    · rw [if_neg hlt]
      exact .ended h hlt

end loop

section copy

variable {source : List UInt8} {outcomes : List SendFile}

def answers (outcomes : List SendFile) : Nat :=
  (outcomes.filter fun o => decide (o ≠ .interrupted)).length

theorem answers_le_total {remaining : Nat} (hp : Possible remaining outcomes)
    (hfails : ¬ FailsEarly remaining outcomes) (htotal : total outcomes < remaining) :
    answers outcomes ≤ total outcomes := by
  induction outcomes generalizing remaining with
  | nil => exact Nat.zero_le _
  | cons o rest ih =>
    obtain ⟨n, rfl⟩ := Nat.exists_eq_add_one.mpr (Nat.zero_lt_of_lt htotal)
    rw [failsEarly_cons, not_or] at hfails
    rw [total_cons] at htotal ⊢
    have hrest : total rest < n + 1 - o.count := by omega
    cases o with
    | interrupted =>
      have hcount : SendFile.interrupted.count = 0 := rfl
      rw [answers, List.filter_cons_of_neg (by simp), hcount, Nat.zero_add]
      exact ih hp hfails.2 hrest
    | error => exact absurd ⟨.inl rfl, Nat.zero_lt_succ n⟩ hfails.1
    | zero => exact absurd ⟨.inr rfl, Nat.zero_lt_succ n⟩ hfails.1
    | sent ret =>
      obtain ⟨hpos, -, hp⟩ := hp
      have hle := ih hp hfails.2 hrest
      rw [answers, List.filter_cons_of_pos (by simp), List.length_cons, SendFile.count, add_comm]
      exact Nat.add_le_add hpos hle

theorem start_inStep (source : List UInt8) : InStep source start :=
  ⟨rfl, rfl, Nat.zero_le _⟩

theorem fds_valid (sourceFd targetFd : Nat) : ¬ ((sourceFd : Int) < 0 ∨ (targetFd : Int) < 0) := by
  omega

theorem copyFileByFd_eq (sourceFd targetFd : Nat) (hsize : source.length ≤ maxFontFileSize) :
    copyFileByFd source sourceFd targetFd (some source.length) outcomes =
      sendLoop source source.length start outcomes := by
  have hsmall : ¬ ((source.length : Int) < 0 ∨ (source.length : Int).toNat > maxFontFileSize) := by
    rw [Int.toNat_natCast]
    omega
  rw [copyFileByFd, if_neg (fds_valid sourceFd targetFd)]
  exact if_neg hsmall

theorem copy_loop_exact (sourceFd targetFd : Nat) (hsize : source.length ≤ maxFontFileSize)
    (hp : Possible source.length outcomes) :
    Exact source source.length outcomes
        (copyFileByFd source sourceFd targetFd (some source.length) outcomes) ∧
      (source.length ≤ answers outcomes →
        (copyFileByFd source sourceFd targetFd (some source.length) outcomes).returned ≠ none) := by
  rw [copyFileByFd_eq sourceFd targetFd hsize]
  have hexact := sendLoop_exact (start_inStep source) hp
  refine ⟨hexact, fun henough hnone => ?_⟩
  obtain ⟨hfails, htotal⟩ := hexact.pending.mp hnone
  have hle := answers_le_total hp hfails htotal
  exact absurd (henough.trans hle) (not_le.mpr htotal)

theorem short_writes_copied :
    (copyFileByFd [1, 2, 3] 5 6 (some 3) [.sent 1, .interrupted, .sent 2]).target = [1, 2, 3] :=
  (copy_loop_exact 5 6 (by decide) (by decide)).1.done.mp (by decide)

theorem interrupted_not_ended :
    ¬ ∀ (source : List UInt8) (outcomes : List SendFile), source.length ≤ maxFontFileSize →
      Possible source.length outcomes →
        (copyFileByFd source 5 6 (some source.length) outcomes).returned ≠ none := by
  intro h
  exact absurd (h [0] [.interrupted] (by decide) (by decide)) (by decide)

theorem copy_refines {w : World} {fd : Fd} {path : Str} {b : Bool} (sourceFd targetFd : Nat)
    (hplace : w.canHold (locate path) = true) (hp : Possible fd.content.length outcomes)
    (h : (copyFileByFd fd.content sourceFd targetFd (some fd.content.length) outcomes).returned =
      some b) :
    let target :=
      (copyFileByFd fd.content sourceFd targetFd (some fd.content.length) outcomes).target
    w.copy fd path { sent := some target.length } = (b, w.put path (.bytes target)) := by
  intro target
  rw [World.copy, if_neg (by simp [hplace])]
  by_cases hsize : fd.content.length ≤ maxFontFileSize
  · obtain ⟨hexact, -⟩ := copy_loop_exact sourceFd targetFd hsize hp
    have hdone : decide (fd.content.length ≤ target.length) = b := by
      cases b with
      | true => simp [target, hexact.done.mp h]
      | false =>
        refine decide_eq_false fun hle => ?_
        have hsame := hexact.done.mpr (hexact.copied.eq_of_length_le hle)
        cases h.symm.trans hsame
    rw [if_neg (not_lt.mpr hsize)]
    have htarget : fd.content.take target.length = target :=
      (List.prefix_iff_eq_take.mp hexact.copied).symm
    simp only [Option.getD_some, hdone, htarget]
  · have hrun : copyFileByFd fd.content sourceFd targetFd (some fd.content.length) outcomes =
        ⟨[], [], some false⟩ := by
      rw [copyFileByFd, if_neg (fds_valid sourceFd targetFd)]
      exact if_pos (.inr (not_le.mp hsize))
    rw [if_pos (not_le.mp hsize)]
    simp only [target, hrun] at h ⊢
    rw [← Option.some.inj h]

end copy

end CopyLoop
