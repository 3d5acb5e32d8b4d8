import FontManager.Sequential.LibraryRuns
import FontManager.Source.StartReason

open FontDefine FontManagerUtils FontBook FontLibrary Interaction Text

namespace FontManagerServer

structure Names (reason : SystemAbilityOnDemandReason) (n : Int) : Prop where
  numeral : Numeral (cStr reason.value) n
  nonneg : 0 ≤ n
  bounded : n ≤ int32Max

section parsing

variable {longMax : Nat} {reason : SystemAbilityOnDemandReason} {n : Int}

theorem value_ne_nil (h : cStr reason.value ≠ []) : reason.value ≠ [] := by
  intro hnil
  rw [hnil] at h
  exact h rfl

theorem parse_of_names (hlong : int32Max ≤ longMax) (h : Names reason n) :
    parseUserIdFromReason longMax reason = n := by
  have hne := h.numeral.nonempty
  have hmin := h.nonneg
  have hmax := h.bounded
  have hclamp : clampLong longMax n = n := clampLong_eq_iff.mpr (by omega)
  have hshort : ([] : Str).length ≠ (cStr reason.value).length := fun hlen =>
    hne (List.length_eq_zero_iff.mp hlen.symm)
  unfold parseUserIdFromReason
  rw [if_neg (value_ne_nil hne), strtol_numeral longMax h.numeral, hclamp]
  rw [if_neg]
  simp only [decide_true, not_or, not_not]
  exact ⟨hshort, trivial, by simp, by omega, by omega⟩

theorem parse_cases (hlong : int32Max ≤ longMax) :
    Names reason (parseUserIdFromReason longMax reason) ∨
      (∀ n, ¬ Names reason n) ∧ parseUserIdFromReason longMax reason = invalidUserId := by
  by_cases hnamed : ∃ n, Names reason n
  · obtain ⟨n, hn⟩ := hnamed
    exact Or.inl ((parse_of_names hlong hn).symm ▸ hn)
  · refine Or.inr ⟨fun n hn => hnamed ⟨n, hn⟩, ?_⟩
    unfold parseUserIdFromReason
    split
    · rfl
    · next hvalue =>
      dsimp only
      split
      · rfl
      · next hgood =>
        simp only [not_or, not_not] at hgood
        obtain ⟨hlen, hrest, hrange, hnonneg, hmax⟩ := hgood
        have hne : cStr reason.value ≠ [] := by
          intro hnil
          rw [hnil] at hlen
          exact hlen rfl
        obtain ⟨m, hm, hval, hflag⟩ := numeral_of_strtol hne hrest
        rw [hflag, decide_eq_false_iff_not, not_not] at hrange
        rw [hval, hrange] at hnonneg hmax
        exact absurd ⟨m, hm, by omega, by omega⟩ hnamed

end parsing

def startCleanup : StartReason → FontTask FontErrorCode
  | .bootCompleted => cleanupAllScopeFontsOnBoot
  | .userStopping userId => cleanupUserScopeFonts userId
  | .other => cleanupAppScopeFontsOnStart

theorem handle_startTask {C : Type} (reason : StartReason) :
    handle (C := C) (startTask reason) = ⟨.cleaning, silent (font (startCleanup reason))⟩ := by
  cases reason <;> rfl

inductive Started (lib : FontLibrary) (reason : SystemAbilityOnDemandReason) : FontLibrary → Prop
  | boot (h : reason.name = reasonBootCompleted) :
    Started lib reason (sweepUsers (Record.inScope (· ≥ 0)) lib lib.userIds)
  | stopping {n : Int} (h : reason.name = reasonUserStopping) (hn : Names reason n) :
    Started lib reason (lib.call n .cleanupScopeFontsByUser).2
  | garbled (h : reason.name = reasonUserStopping) (hn : ∀ n, ¬ Names reason n) :
    Started lib reason lib
  | other (hboot : reason.name ≠ reasonBootCompleted) (hstop : reason.name ≠ reasonUserStopping) :
    Started lib reason (sweepUsers (Record.inScope (· = fontScopeApp)) lib lib.userIds)

section start

variable {lib : FontLibrary} {w : World} {longMax : Nat} {reason : SystemAbilityOnDemandReason}

theorem cleanup_kept (h : Kept lib w) (hlong : int32Max ≤ longMax)
    (hknown : ∀ n, Names reason n → n ∈ lib.userIds) :
    Ensures (each Faultless) (startCleanup (startReason longMax reason))
      (fun _ w' => ∃ lib', Started lib reason lib' ∧ Kept lib' w') w := by
  unfold startReason
  by_cases hboot : reason.name = reasonBootCompleted
  · rw [if_pos hboot]
    apply h.onBoot.mono
    intro _ _ hmeets
    exact ⟨_, .boot hboot, hmeets.2⟩
  · rw [if_neg hboot]
    by_cases hstop : reason.name = reasonUserStopping
    · rw [if_pos hstop]
      show Ensures (each Faultless) (cleanupUserScopeFonts (parseUserIdFromReason longMax reason)) _ w
      unfold cleanupUserScopeFonts
      rcases parse_cases hlong with hnames | ⟨hnone, hinvalid⟩
      · rw [if_neg (Int.not_lt.mpr hnames.nonneg)]
        apply (call_kept h (hknown _ hnames) (c := .cleanupScopeFontsByUser)
          (fits_removal rfl rfl rfl)).mono
        rintro code w' ⟨-, h'⟩
        exact ⟨_, .stopping hstop hnames, h'⟩
      · rw [hinvalid, if_pos (by decide)]
        exact Ensures.pure ⟨lib, .garbled hstop hnone, h⟩
    · rw [if_neg hstop]
      apply h.onStart.mono
      intro _ _ hmeets
      exact ⟨_, .other hboot hstop, hmeets.2⟩

theorem start_cleans (h : Kept lib w) (hlong : int32Max ≤ longMax)
    (hknown : ∀ n, Names reason n → n ∈ lib.userIds) {ios : List Io}
    (hios : ∀ io ∈ ios, Faultless io) :
    ∃ lib', Started lib reason lib' ∧
      Kept lib' ((startCleanup (startReason longMax reason)).run semantics w ios).2 :=
  Program.run_of_wp semantics Faultless ⟨rfl, rfl, rfl⟩ (cleanup_kept h hlong hknown) hios

section evening

def evening : List Request := week.take 6

def leaving : SystemAbilityOnDemandReason := ⟨reasonUserStopping, " +101".toList⟩

theorem leaving_names : Names leaving 101 where
  numeral := by
    exact ⟨[' '], '+' :: decimal 101, rfl, List.forall_mem_singleton.mpr rfl,
      Signed.plus (digits_decimal 101)⟩
  nonneg := by decide
  bounded := by decide

theorem leaving_cleans : ∃ lib',
    Started (ideal.after (opened [100, 101]) evening) leaving lib' ∧
      Kept lib' ((startCleanup (startReason 9223372036854775807 leaving)).run semantics
        (FontManagerServer.service.after (.provisioned [100, 101]) (evening.map fun q => (q, [])))
        []).2 := by
  have hrequests : (evening.map fun q => (q, ([] : List Io))).map Prod.fst = evening := rfl
  have hkept := requests_keep_library (evening.map fun q => (q, [])) (kept_opened [100, 101])
    (by rw [hrequests]; decide) (by simp)
  rw [hrequests] at hkept
  apply start_cleans hkept.2 (by decide) _ (by simp)
  intro n hn
  rw [hn.numeral.unique leaving_names.numeral]
  decide

end evening

end start

theorem reason_of_event {C : Type} {longMax : Nat} (hlong : int32Max ≤ longMax) {n : Nat}
    (hn : n ≤ int32Max) :
    onReceiveEvent (C := C) reasonUserStopping n = [.userStopping n] ∧
      startReason longMax ⟨reasonUserStopping, decimal n⟩ = .userStopping n := by
  have hdecimal : cStr (decimal n) = decimal n :=
    cStr_of_nulFree (not_mem_decimal (by decide) (by decide) n)
  have hnames : Names ⟨reasonUserStopping, decimal n⟩ n :=
    ⟨hdecimal.symm ▸ numeral_decimal n, Int.natCast_nonneg n, hn⟩
  have hname : reasonUserStopping ≠ reasonBootCompleted := by decide
  constructor
  · rw [onReceiveEvent, if_pos rfl, if_pos (Int.natCast_nonneg n)]
  · rw [startReason, if_neg hname, if_pos rfl, parse_of_names hlong hnames]

end FontManagerServer
