import FontManager.Interaction.Machine
import FontManager.Source.Client

open Interaction

inductive ObserverCall (O : Type) where
  | onFontObserver (observer : Option O) (answer : Option Int)
  | offFontObserver (answer : Option Int)

structure ObservedService (O : Type) where
  client : FontManagerClient O
  registered : Option O

namespace ServiceDeath

variable {O : Type} [DecidableEq O]

def start : ObservedService O := ⟨.start, none⟩

def consistent (registered : Option O) : ObserverCall O → Bool
  | .onFontObserver observer (some ret) =>
    if ret = FontErrorCode.ok.value then registered.isNone && observer.isSome
    else if ret = FontErrorCode.scopeFontRepeatedRegister.value then registered.isSome
    else true
  | .offFontObserver (some ret) =>
    if ret = FontErrorCode.ok.value then registered.isSome
    else if ret = FontErrorCode.scopeFontNotRegistered.value then registered.isNone
    else true
  | _ => true

def next (s : ObservedService O) (c : ObserverCall O) : Option (ObservedService O) :=
  if consistent s.registered c then
    match c with
    | .onFontObserver observer answer =>
      let r := s.client.onFontObserver observer answer
      some ⟨r.2, if r.1 = FontErrorCode.ok.value then observer else s.registered⟩
    | .offFontObserver answer =>
      let r := s.client.offFontObserver answer
      some ⟨r.2, if r.1 = FontErrorCode.ok.value then none else s.registered⟩
  else none

def calls : Machine (ObservedService O) (ObserverCall O) := ⟨next⟩

def Faithful (s : ObservedService O) : Prop := s.client.onRemoteDied = s.registered.toList

def benign (s : ObservedService O) (c : ObserverCall O) : Bool :=
  match s.registered, c with
  | some o, .onFontObserver observer (some ret) =>
    decide (ret = FontErrorCode.scopeFontRepeatedRegister.value) && decide (observer = some o)
  | some _, .offFontObserver (some ret) => decide (ret = FontErrorCode.ok.value)
  | _, _ => true

structure Tidy (c : FontManagerClient O) : Prop where
  linked : c.recipients = c.saDeathRecipient.toList
  bound : c.saBinder = c.saDeathRecipient.isSome

variable {c : FontManagerClient O} {s t : ObservedService O} {e : ObserverCall O}

theorem Tidy.removed (h : Tidy c) : c.removeDeathRecipient = [] := by
  unfold FontManagerClient.removeDeathRecipient
  rw [h.linked, h.bound]
  cases c.saDeathRecipient <;> simp

theorem Tidy.link (h : Tidy c) (o : Option O) : Tidy (c.link o) :=
  ⟨by rw [FontManagerClient.link, h.removed]; rfl, rfl⟩

theorem Tidy.unlink (h : Tidy c) : Tidy c.unlink :=
  ⟨by rw [FontManagerClient.unlink, h.removed]; rfl, rfl⟩

theorem onRemoteDied_link (h : Tidy c) (o : Option O) : (c.link o).onRemoteDied = o.toList := by
  rw [FontManagerClient.onRemoteDied, (h.link o).linked]
  cases o <;> rfl

theorem onRemoteDied_unlink (h : Tidy c) : c.unlink.onRemoteDied = [] := by
  rw [FontManagerClient.onRemoteDied, h.unlink.linked]
  rfl

section step

variable {o : Option O} {answer : Option Int}

theorem next_on (h : calls.next s (.onFontObserver o answer) = some t) :
    consistent s.registered (.onFontObserver o answer) = true ∧
      t = ⟨(s.client.onFontObserver o answer).2,
        if (s.client.onFontObserver o answer).1 = FontErrorCode.ok.value then o
        else s.registered⟩ := by
  simp only [calls, next] at h
  split at h
  · exact ⟨‹_›, (Option.some.inj h).symm⟩
  · cases h

theorem next_off (h : calls.next s (.offFontObserver answer) = some t) :
    consistent s.registered (.offFontObserver answer) = true ∧
      t = ⟨(s.client.offFontObserver answer).2,
        if (s.client.offFontObserver answer).1 = FontErrorCode.ok.value then none
        else s.registered⟩ := by
  simp only [calls, next] at h
  split at h
  · exact ⟨‹_›, (Option.some.inj h).symm⟩
  · cases h

theorem tidy_step (hs : Tidy s.client) (h : calls.next s e = some t) : Tidy t.client := by
  cases e with
  | onFontObserver o answer =>
    rw [(next_on h).2]
    cases answer with
    | none => exact hs
    | some ret =>
      unfold FontManagerClient.onFontObserver
      dsimp only
      split
      · exact (hs.link o).unlink
      · exact hs.link o
  | offFontObserver answer =>
    rw [(next_off h).2]
    cases answer with
    | none => exact hs
    | some ret => exact hs.unlink

theorem faithful_on {ret : Int} (hs : Tidy s.client)
    (h : calls.next s (.onFontObserver o (some ret)) = some t) :
    Faithful t ↔ benign s (.onFontObserver o (some ret)) = true := by
  obtain ⟨hc, ht⟩ := next_on h
  rw [ht]
  by_cases hok : ret = FontErrorCode.ok.value
  · obtain ⟨hnone, hsome⟩ : s.registered = none ∧ o.isSome = true := by
      simpa [consistent, hok] using hc
    simp [Faithful, benign, hnone, hok, FontManagerClient.onFontObserver, onRemoteDied_link hs]
  · by_cases hrepeated : ret = FontErrorCode.scopeFontRepeatedRegister.value
    · obtain ⟨o', ho'⟩ : ∃ o', s.registered = some o' := by
        rw [consistent, if_neg hok, if_pos hrepeated] at hc
        exact Option.isSome_iff_exists.mp hc
      have hne : FontErrorCode.scopeFontRepeatedRegister.value ≠ FontErrorCode.ok.value := by decide
      cases o <;>
        simp [Faithful, benign, ho', hrepeated, hne, FontManagerClient.onFontObserver,
          onRemoteDied_link hs]
    · cases hreg : s.registered <;>
        simp [Faithful, benign, hreg, hok, hrepeated, FontManagerClient.onFontObserver,
          onRemoteDied_unlink (hs.link o)]

theorem faithful_off {ret : Int} (hs : Tidy s.client)
    (h : calls.next s (.offFontObserver (some ret)) = some t) :
    Faithful t ↔ benign s (.offFontObserver (some ret)) = true := by
  rw [(next_off h).2]
  by_cases hok : ret = FontErrorCode.ok.value <;> cases hreg : s.registered <;>
    simp [Faithful, benign, hreg, hok, FontManagerClient.offFontObserver, onRemoteDied_unlink hs]

theorem faithful_step (hs : Tidy s.client) (hf : Faithful s) (h : calls.next s e = some t) :
    Faithful t ↔ benign s e = true := by
  cases e with
  | onFontObserver o answer =>
    cases answer with
    | none =>
      rw [(next_on h).2]
      have hbenign : benign s (.onFontObserver o none) = true := by
        cases hreg : s.registered <;> simp [benign, hreg]
      exact iff_of_true hf hbenign
    | some ret => exact faithful_on hs h
  | offFontObserver answer =>
    cases answer with
    | none =>
      rw [(next_off h).2]
      have hbenign : benign s (.offFontObserver none) = true := by
        cases hreg : s.registered <;> simp [benign, hreg]
      exact iff_of_true hf hbenign
    | some ret => exact faithful_off hs h

end step

theorem notified_iff (es : List (ObserverCall O)) (t : ObservedService O) :
    calls.Run (fun s e => benign s e = true) start es t ↔
      calls.Run (fun _ _ => True) start es t ∧
        ∀ fs s, fs <+: es → calls.Run (fun _ _ => True) start fs s → Faithful s :=
  Machine.Run.iff_always (fun s => Tidy s.client) Faithful (fun _ _ _ => tidy_step)
    (fun _ _ _ => faithful_step) ⟨rfl, rfl⟩ rfl

def refused : List (ObserverCall Nat) :=
  [.onFontObserver (some 1) (some FontErrorCode.ok.value),
    .onFontObserver (some 2) (some FontErrorCode.scopeFontRepeatedRegister.value)]

theorem refused_observer_notified :
    ¬ ∀ (es : List (ObserverCall Nat)) (t : ObservedService Nat),
      calls.Run (fun _ _ => True) start es t → Faithful t := by
  intro h
  obtain ⟨t, hrun, ht⟩ := Machine.exists_run_of_replay (m := calls) (fun _ _ => true)
    (fun t : ObservedService Nat => t.client.onRemoteDied != t.registered.toList) start refused
    (by decide)
  exact bne_iff_ne.mp ht (h refused t (hrun.mono fun _ _ _ => trivial))

end ServiceDeath
