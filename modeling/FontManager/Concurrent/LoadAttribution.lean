import FontManager.Source.LoadManager

open Interaction FontServiceLoadManager FontSALoadCallback LoadProcess

namespace LoadAttribution

structure Attributed (s : LoadProcess) : Prop where
  reported : ∀ r, (r, true) ∈ s.results → ∃ n ∈ s.succeeded, r = some n
  honoured : ∀ n ∈ s.timely, (some n, false) ∉ s.results

def ownCallback (s : LoadProcess) : LoadStep → Bool
  | .deliver n _ => s.call.all fun c => c.request = some n
  | _ => true

-- What the status says of the request of the call that waits.
inductive Waiting (s : LoadProcess) (n : Nat) : Prop
  | pending (hstatus : s.manager = ⟨.waitResult⟩) (hflight : n ∈ s.inFlight) (htimely : n ∉ s.timely)
  | loaded (hstatus : s.manager = ⟨.success⟩) (hflight : n ∉ s.inFlight) (hreported : n ∈ s.succeeded)
  | failed (hstatus : s.manager = ⟨.fail⟩) (hflight : n ∉ s.inFlight) (htimely : n ∉ s.timely)

structure Faithful (s : LoadProcess) : Prop where
  nodup : s.inFlight.Nodup
  issued : ∀ n, n ∈ s.inFlight ∨ n ∈ s.timely ∨ (∃ b, (some n, b) ∈ s.results) → n < s.requests
  attributed : Attributed s
  closed : ∀ n, (some n, false) ∈ s.results → n ∈ s.expired ∨ n ∉ s.inFlight
  waiting : ∀ n, s.call = some (.waiting n) → n < s.requests ∧ Waiting s n
  entered : s.call = some .entered → s.manager = ⟨.waitResult⟩

variable {s s' : LoadProcess} {e : LoadStep} {n : Nat}

theorem faithful_start : Faithful start where
  nodup := .nil
  issued := by simp [start]
  attributed := ⟨by simp [start], by simp [start]⟩
  closed := by simp [start]
  waiting := by simp [start]
  entered := by simp [start]

theorem Waiting.checked (h : Waiting s n) :
    (s.manager.checkSaLoaded = true → n ∈ s.succeeded) ∧
      (s.manager.checkSaLoaded = false → n ∉ s.timely) := by
  cases h with
  | pending hstatus _ htimely => exact ⟨by simp [hstatus, checkSaLoaded, waitStatus], fun _ => htimely⟩
  | loaded hstatus _ hreported =>
    exact ⟨fun _ => hreported, by simp [hstatus, checkSaLoaded, waitStatus]⟩
  | failed hstatus _ htimely => exact ⟨by simp [hstatus, checkSaLoaded, waitStatus], fun _ => htimely⟩

theorem Waiting.closed (h : Waiting s n) (hback : s.manager.waitStatus = true ∨ n ∈ s.expired) :
    n ∈ s.expired ∨ n ∉ s.inFlight := by
  cases h with
  | pending hstatus => exact .inl (hback.resolve_left (by simp [hstatus, waitStatus]))
  | loaded _ hflight => exact .inr hflight
  | failed _ hflight => exact .inr hflight

theorem faithful_initStatus (h : Faithful s) :
    Faithful { s with manager := s.manager.initStatus, call := some .entered } where
  nodup := h.nodup
  issued := h.issued
  attributed := ⟨h.attributed.reported, h.attributed.honoured⟩
  closed := h.closed
  waiting n hn := by cases hn
  entered _ := rfl

theorem faithful_refuse (h : Faithful s) :
    Faithful { s with call := none, results := s.results ++ [(none, false)] } where
  nodup := h.nodup
  issued n hn := h.issued n (by simpa using hn)
  attributed := ⟨fun r hr => h.attributed.reported r (by simpa using hr),
    fun n hn hf => h.attributed.honoured n hn (by simpa using hf)⟩
  closed n hn := h.closed n (by simpa using hn)
  waiting n hn := by cases hn
  entered hn := by cases hn

theorem faithful_loadSystemAbility (h : Faithful s) (hcall : s.call = some .entered) :
    Faithful { s with
      call := some (.waiting s.requests)
      requests := s.requests + 1
      inFlight := s.inFlight ++ [s.requests] } := by
  have hfresh : s.requests ∉ s.inFlight := fun hf => lt_irrefl _ (h.issued _ (.inl hf))
  refine ⟨?_, fun n hn => ?_, ⟨h.attributed.reported, h.attributed.honoured⟩, fun n hn => ?_,
    fun n hn => ?_, fun hn => by cases hn⟩
  · simpa [List.nodup_append] using ⟨h.nodup, fun a ha he => hfresh (he ▸ ha)⟩
  · rcases hn with hn | hn
    · rcases List.mem_append.mp hn with hn | hn
      · exact Nat.lt_succ_of_lt (h.issued n (.inl hn))
      · exact List.mem_singleton.mp hn ▸ Nat.lt_succ_self _
    · exact Nat.lt_succ_of_lt (h.issued n (.inr hn))
  · refine (h.closed n hn).imp_right fun hflight hin => ?_
    rcases List.mem_append.mp hin with hin | hin
    · exact hflight hin
    · exact (h.issued n (.inr (.inr ⟨false, hn⟩))).ne (List.mem_singleton.mp hin)
  · cases hn
    have hflight : s.requests ∈ s.inFlight ++ [s.requests] := by simp
    exact ⟨Nat.lt_succ_self _, .pending (h.entered hcall) hflight
      fun ht => lt_irrefl _ (h.issued _ (.inr (.inl ht)))⟩

def delivered (s : LoadProcess) (n : Nat) (loaded : Bool) : LoadProcess :=
  { s with
    manager := onLoadSystemAbility loaded s.manager
    inFlight := s.inFlight.erase n
    succeeded := if loaded then s.succeeded ++ [n] else s.succeeded
    timely := if loaded ∧ n ∉ s.expired then s.timely ++ [n] else s.timely }

theorem mem_timely {m : Nat} {loaded : Bool} (h : m ∈ (delivered s n loaded).timely) :
    m ∈ s.timely ∨ m = n ∧ loaded = true ∧ n ∉ s.expired := by
  simp only [delivered] at h
  split at h
  · rename_i hnew
    exact (List.mem_append.mp h).imp_right fun hm => ⟨List.mem_singleton.mp hm, hnew⟩
  · exact .inl h

theorem succeeded_subset (s : LoadProcess) (n : Nat) (loaded : Bool) :
    s.succeeded ⊆ (delivered s n loaded).succeeded := by
  cases loaded with
  | false => exact List.Subset.refl _
  | true => exact List.subset_append_left _ _

theorem waiting_delivered {loaded : Bool} (h : Faithful s) (hn : n ∈ s.inFlight) (hw : Waiting s n) :
    Waiting (delivered s n loaded) n := by
  have hflight : n ∉ s.inFlight.erase n := h.nodup.not_mem_erase
  cases loaded with
  | true => exact .loaded rfl hflight (List.mem_append_right _ (List.mem_singleton_self n))
  | false =>
    refine .failed rfl hflight fun ht => ?_
    rcases mem_timely ht with ht | ⟨-, hloaded, -⟩
    · cases hw with
      | pending _ _ htimely => exact htimely ht
      | loaded _ hgone => exact hgone hn
      | failed _ hgone => exact hgone hn
    · cases hloaded

theorem faithful_delivered {loaded : Bool} (h : Faithful s) (hn : n ∈ s.inFlight)
    (hown : ownCallback s (.deliver n loaded) = true) : Faithful (delivered s n loaded) := by
  have hcall : ∀ c, s.call = some c → c.request = some n := fun c hc => by
    simpa [ownCallback, hc] using hown
  refine ⟨h.nodup.erase n, fun m hm => ?_, ⟨fun r hr => ?_, fun m hm hf => ?_⟩, fun m hm => ?_,
    fun m hm => ?_, fun he => ?_⟩
  · rcases hm with hm | hm | hm
    · exact h.issued m (.inl (List.mem_of_mem_erase hm))
    · rcases mem_timely hm with hm | ⟨rfl, -⟩
      · exact h.issued m (.inr (.inl hm))
      · exact h.issued m (.inl hn)
    · exact h.issued m (.inr (.inr hm))
  · obtain ⟨m, hm, rfl⟩ := h.attributed.reported r hr
    exact ⟨m, succeeded_subset s n loaded hm, rfl⟩
  · rcases mem_timely hm with hm | ⟨rfl, -, hexpired⟩
    · exact h.attributed.honoured m hm hf
    · exact (h.closed m hf).elim hexpired fun hflight => hflight hn
  · exact (h.closed m hm).imp_right fun hflight hin => hflight (List.mem_of_mem_erase hin)
  · obtain rfl : m = n := Option.some.inj (hcall _ hm)
    exact ⟨(h.waiting m hm).1, waiting_delivered h hn (h.waiting m hm).2⟩
  · cases hcall _ he

theorem faithful_expire (h : Faithful s) (n : Nat) :
    Faithful { s with expired := s.expired ++ [n] } where
  nodup := h.nodup
  issued := h.issued
  attributed := ⟨h.attributed.reported, h.attributed.honoured⟩
  closed m hm := (h.closed m hm).imp_left (List.mem_append_left _)
  waiting m hm := by
    obtain ⟨hlt, hw⟩ := h.waiting m hm
    refine ⟨hlt, ?_⟩
    cases hw with
    | pending hstatus hflight htimely => exact .pending hstatus hflight htimely
    | loaded hstatus hflight hreported => exact .loaded hstatus hflight hreported
    | failed hstatus hflight htimely => exact .failed hstatus hflight htimely
  entered := h.entered

theorem faithful_checkSaLoaded (h : Faithful s) (hcall : s.call = some (.waiting n))
    (hback : s.manager.waitStatus = true ∨ n ∈ s.expired) :
    Faithful { s with call := none, results := s.results ++ [(some n, s.manager.checkSaLoaded)] } := by
  obtain ⟨hlt, hw⟩ := h.waiting n hcall
  have hresult : ∀ {r : Option Nat} {b : Bool},
      (r, b) ∈ s.results ++ [(some n, s.manager.checkSaLoaded)] →
        (r, b) ∈ s.results ∨ r = some n ∧ s.manager.checkSaLoaded = b := fun hr => by
    rcases List.mem_append.mp hr with hr | hr
    · exact .inl hr
    · cases List.mem_singleton.mp hr
      exact .inr ⟨rfl, rfl⟩
  refine ⟨h.nodup, fun m hm => ?_, ⟨fun r hr => ?_, fun m hm hf => ?_⟩, fun m hm => ?_,
    fun m hm => (by cases hm), fun hm => (by cases hm)⟩
  · rcases hm with hm | hm | ⟨b, hm⟩
    · exact h.issued m (.inl hm)
    · exact h.issued m (.inr (.inl hm))
    · rcases hresult hm with hm | ⟨hmn, -⟩
      · exact h.issued m (.inr (.inr ⟨b, hm⟩))
      · exact Option.some.inj hmn ▸ hlt
  · rcases hresult hr with hr | ⟨rfl, hb⟩
    · exact h.attributed.reported r hr
    · exact ⟨n, hw.checked.1 hb, rfl⟩
  · rcases hresult hf with hf | ⟨hmn, hb⟩
    · exact h.attributed.honoured m hm hf
    · exact hw.checked.2 hb (Option.some.inj hmn ▸ hm)
  · rcases hresult hm with hm | ⟨hmn, -⟩
    · exact h.closed m hm
    · exact Option.some.inj hmn ▸ hw.closed hback

theorem of_guarded {p : Prop} [Decidable p] {t : LoadProcess}
    (h : (if p then some t else none) = some s') : p ∧ t = s' :=
  (Option.ite_none_right_eq_some.mp h).imp_right Option.some.inj

theorem faithful_step (h : Faithful s) (hown : ownCallback s e = true)
    (hnext : machine.next s e = some s') : Faithful s' := by
  cases e with
  | initStatus =>
    obtain ⟨-, rfl⟩ := of_guarded hnext
    exact faithful_initStatus h
  | refuse =>
    obtain ⟨-, rfl⟩ := of_guarded hnext
    exact faithful_refuse h
  | loadSystemAbility =>
    obtain ⟨hcall, rfl⟩ := of_guarded hnext
    exact faithful_loadSystemAbility h hcall
  | deliver n loaded =>
    obtain ⟨hn, rfl⟩ := of_guarded hnext
    exact faithful_delivered h hn hown
  | expire n =>
    obtain ⟨-, rfl⟩ := of_guarded hnext
    exact faithful_expire h n
  | checkSaLoaded =>
    simp only [machine, next] at hnext
    split at hnext
    · rename_i n hcall
      obtain ⟨hback, rfl⟩ := of_guarded hnext
      exact faithful_checkSaLoaded h hcall hback
    · cases hnext

theorem results_attributed {es : List LoadStep}
    (h : machine.Run (fun s e => ownCallback s e = true) start es s) : Attributed s :=
  (h.invariant (fun _ _ _ hs hown hnext => faithful_step hs hown hnext) faithful_start).attributed

section late

def lateSuccess : List LoadStep :=
  [.initStatus, .loadSystemAbility, .expire 0, .checkSaLoaded, .initStatus, .loadSystemAbility,
    .deliver 0 true, .checkSaLoaded]

theorem late_success_misattributed :
    ¬ ∀ (es : List LoadStep) (s : LoadProcess), machine.Run (fun _ _ => True) start es s →
      Attributed s := by
  intro h
  obtain ⟨s, hrun, hs⟩ := Machine.exists_run_of_replay (m := machine) (fun _ _ => true)
    (fun s => s.results.contains (some 1, true) && !s.succeeded.contains 1) start lateSuccess (by decide)
  obtain ⟨hresult, hreported⟩ := Bool.and_eq_true_iff.mp hs
  have hattributed := h _ s (hrun.mono fun _ _ _ => trivial)
  obtain ⟨n, hn, hr⟩ := hattributed.reported (some 1) (by simpa using hresult)
  obtain rfl := Option.some.inj hr
  simp [hn] at hreported

def retried : List LoadStep :=
  [.initStatus, .loadSystemAbility, .expire 0, .checkSaLoaded, .deliver 0 true, .initStatus,
    .loadSystemAbility, .deliver 1 true, .checkSaLoaded]

theorem retried_attributed :
    ∃ s, s.results = [(some 0, false), (some 1, true)] ∧ Attributed s := by
  obtain ⟨s, hrun, hs⟩ := Machine.exists_run_of_replay (m := machine) ownCallback
    (fun s => s.results = [(some 0, false), (some 1, true)]) start retried (by decide)
  exact ⟨s, by simpa using hs, results_attributed hrun⟩

end late

end LoadAttribution
