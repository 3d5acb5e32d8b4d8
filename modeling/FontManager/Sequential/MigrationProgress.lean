import FontManager.Concurrent.Admits
import FontManager.Interaction.Execution
import Mathlib.Algebra.Order.Round
import Mathlib.Data.Rat.Floor
import Mathlib.Tactic.FieldSimp
import Mathlib.Tactic.Linarith
import Mathlib.Tactic.Ring

open FontDefine FontManagerUtils Interaction

namespace DataMigrationManager

section rule

variable {n i j : Nat}

def triggered (n : Nat) : List Nat := (List.range n).filter (isShouldUpdateProgress · n)

-- The place of a file on the scale of a hundred, rounded.
def slot (n i : Nat) : Nat := (2 * maxTriggerCount * i + n) / (2 * n)

theorem should_iff (hn : 100 < n) :
    isShouldUpdateProgress i n = true ↔
      -50 < (100 * i : Int) - slot n i * n ∧ (100 * i : Int) - slot n i * n < 50 := by
  have hlarge : ¬ n ≤ maxTriggerCount := not_le.mpr hn
  rw [isShouldUpdateProgress, if_neg hlarge]
  refine decide_eq_true_iff.trans ?_
  show 2 * ((100 * i : Int) - slot n i * n).natAbs < 100 ↔ _
  omega

section rational

theorem round_slot (i : Nat) (hn : 0 < n) :
    round ((i : ℚ) / ((n : ℚ) / maxTriggerCount)) = (slot n i : Int) := by
  have hpos : (n : ℚ) ≠ 0 := by exact_mod_cast hn.ne'
  have hsum : (i : ℚ) / ((n : ℚ) / maxTriggerCount) + 1 / 2 =
      ((2 * maxTriggerCount * i + n : Nat) : ℚ) / ((2 * n : Nat) : ℚ) := by
    simp only [maxTriggerCount]
    push_cast
    field_simp
    ring
  rw [round_eq, hsum, Rat.floor_natCast_div_natCast]
  rfl

-- The rule as the source writes it, with rationals for the doubles.
def Triggers (n i : Nat) : Prop :=
  n ≤ maxTriggerCount ∨
    |(i : ℚ) - round ((i : ℚ) / ((n : ℚ) / maxTriggerCount)) * ((n : ℚ) / maxTriggerCount)| < 1 / 2

theorem should_iff_triggers (n i : Nat) : isShouldUpdateProgress i n = true ↔ Triggers n i := by
  by_cases hn : n ≤ maxTriggerCount
  · rw [isShouldUpdateProgress, if_pos hn]
    exact iff_of_true rfl (.inl hn)
  have hlarge : 100 < n := not_le.mp hn
  have hscale : (i : ℚ) - ((slot n i : Int) : ℚ) * ((n : ℚ) / maxTriggerCount) =
      (((100 * i : Int) - slot n i * n : Int) : ℚ) / 100 := by
    simp only [maxTriggerCount]
    push_cast
    ring
  rw [Triggers, or_iff_right hn, round_slot i (by omega), hscale, should_iff hlarge, abs_lt,
    lt_div_iff₀ (by norm_num), div_lt_iff₀ (by norm_num)]
  constructor
  · rintro ⟨hlow, hhigh⟩
    have hlow' : (-50 : ℚ) < ((100 * i - slot n i * n : Int) : ℚ) := by exact_mod_cast hlow
    have hhigh' : ((100 * i - slot n i * n : Int) : ℚ) < 50 := by exact_mod_cast hhigh
    constructor <;> linarith
  · rintro ⟨hlow, hhigh⟩
    have hlow' : (-50 : ℚ) < ((100 * i - slot n i * n : Int) : ℚ) := by linarith
    have hhigh' : ((100 * i - slot n i * n : Int) : ℚ) < 50 := by linarith
    exact ⟨by exact_mod_cast hlow', by exact_mod_cast hhigh'⟩

end rational

theorem near_slot (hn : 100 < n) (h : isShouldUpdateProgress i n = true) :
    slot n i * n < 100 * i + 50 ∧ 100 * i < slot n i * n + 50 := by
  obtain ⟨hlow, hhigh⟩ := (should_iff hn).mp h
  have hcast : ((slot n i * n : Nat) : Int) = (slot n i : Int) * n := Int.natCast_mul _ _
  rw [← hcast] at hlow hhigh
  omega

theorem slot_lt (hi : i < n) (hn : 100 < n) (h : isShouldUpdateProgress i n = true) :
    slot n i < 100 := by
  obtain ⟨hbelow, -⟩ := near_slot hn h
  have hlast : slot n i * n < 100 * n := by omega
  exact Nat.lt_of_mul_lt_mul_right hlast

theorem slot_injective (hn : 100 < n) (hi : isShouldUpdateProgress i n = true)
    (hj : isShouldUpdateProgress j n = true) (h : slot n i = slot n j) : i = j := by
  have hnear := near_slot hn hi
  have hnear' := near_slot hn hj
  rw [h] at hnear
  omega

theorem mem_triggered_iff : i ∈ triggered n ↔ i < n ∧ isShouldUpdateProgress i n = true := by
  rw [triggered, List.mem_filter, List.mem_range]

theorem mem_triggered (h : i ∈ triggered n) : i < n ∧ isShouldUpdateProgress i n = true :=
  mem_triggered_iff.mp h

theorem triggered_nodup (n : Nat) : (triggered n).Nodup := List.nodup_range.filter _

theorem triggered_few (hn : n ≤ 100) : triggered n = List.range n := by
  refine List.filter_eq_self.mpr fun i _ => ?_
  rw [isShouldUpdateProgress, if_pos (show n ≤ maxTriggerCount from hn)]

theorem triggered_many (hn : 100 < n) : (triggered n).length ≤ 100 := by
  have hslots : ((triggered n).map (slot n)).Nodup :=
    (triggered_nodup n).map_on fun i hi j hj h =>
      slot_injective hn (mem_triggered hi).2 (mem_triggered hj).2 h
  have hrange : (triggered n).map (slot n) ⊆ List.range 100 := by
    intro k hk
    obtain ⟨i, hi, rfl⟩ := List.mem_map.mp hk
    obtain ⟨hlt, hshould⟩ := mem_triggered hi
    exact List.mem_range.mpr (slot_lt hlt hn hshould)
  simpa using (List.subperm_of_subset hslots hrange).length_le

theorem first_triggered (n : Nat) : isShouldUpdateProgress 0 n = true := by
  by_cases hn : n ≤ maxTriggerCount
  · rw [isShouldUpdateProgress, if_pos hn]
  · have hslot : (2 * maxTriggerCount * 0 + n) / (2 * n) = 0 := by
      rw [Nat.mul_zero, Nat.zero_add]
      exact Nat.div_eq_of_lt (by simp only [maxTriggerCount] at hn; omega)
    rw [isShouldUpdateProgress, if_neg hn, hslot]
    simp [maxTriggerCount]

theorem triggered_head (hn : 1 ≤ n) : (triggered n).head? = some 0 := by
  obtain ⟨m, rfl⟩ := Nat.exists_eq_add_one.mpr hn
  have hfirst := first_triggered (m + 1)
  rw [triggered, List.range_succ_eq_map,
    List.filter_cons_of_pos (p := fun i => isShouldUpdateProgress i (m + 1)) hfirst]
  rfl

end rule

theorem int32_of_lt {n : Nat} (h : n < 2 ^ 31) : int32 n = n :=
  Int.bmod_eq_of_le (by omega) (by omega)

section percentage

variable {n i j : Nat}

theorem percentage_le (hi : i < n) : (i * 100 + n / 2) / n ≤ 100 := by
  have hn : 0 < n := Nat.zero_lt_of_lt hi
  rw [← Nat.lt_succ_iff, Nat.div_lt_iff_lt_mul hn]
  omega

theorem progressPercentage_eq (hi : i < n) :
    progressPercentage i n = (i * 100 + n / 2) / n := by
  unfold progressPercentage
  split
  · next hzero =>
    rw [hzero, Nat.zero_mul, Nat.zero_add, Nat.div_div_eq_div_mul]
    exact (Nat.div_eq_of_lt (by omega)).symm
  · have hle := percentage_le hi
    exact Nat.mod_eq_of_lt (Nat.lt_of_le_of_lt hle (by decide))

theorem progressPercentage_mono (hij : i ≤ j) (hj : j < n) :
    progressPercentage i n ≤ progressPercentage j n := by
  rw [progressPercentage_eq (hij.trans_lt hj), progressPercentage_eq hj]
  exact Nat.div_le_div_right (by omega)

def sentPercentage (n i : Nat) : Int := int32 (progressPercentage i n)

theorem sentPercentage_eq (hi : i < n) : sentPercentage n i = ((i * 100 + n / 2) / n : Nat) := by
  have hle := percentage_le hi
  rw [sentPercentage, progressPercentage_eq hi]
  exact int32_of_lt (Nat.lt_of_le_of_lt hle (by decide))

theorem sentPercentage_mono (hij : i ≤ j) (hj : j < n) : sentPercentage n i ≤ sentPercentage n j := by
  have hle := progressPercentage_mono hij hj
  rw [progressPercentage_eq (hij.trans_lt hj), progressPercentage_eq hj] at hle
  rw [sentPercentage_eq (hij.trans_lt hj), sentPercentage_eq hj]
  exact_mod_cast hle

theorem percentages_ordered (n : Nat) :
    ((triggered n).map (sentPercentage n)).Pairwise (· ≤ ·) := by
  have hsorted : (triggered n).Pairwise (· < ·) := List.pairwise_lt_range.filter _
  refine List.pairwise_map.mpr (hsorted.imp_of_mem fun _ hj hij => ?_)
  exact sentPercentage_mono hij.le (mem_triggered hj).1

end percentage

section time

variable {size users : Nat}

def remaining (size users : Nat) : Nat := max 1 (size * users / 2 ^ 20 / 170)

theorem no_overflow_of_guard (h : users > 0 ∧ size < uintmaxMax / users) :
    size * users < 2 ^ 64 := by
  have hle : size * users ≤ uintmaxMax / users * users := Nat.mul_le_mul_right users h.2.le
  have hmax : uintmaxMax / users * users ≤ uintmaxMax := Nat.div_mul_le_self _ _
  have hlt : uintmaxMax < 2 ^ 64 := by decide
  omega

-- Where the guard refuses a product, what would remain does not fit in 32 bits.
theorem remaining_of_refused (hpos : 0 < users) (husers : users < 2 ^ 32)
    (h : ¬ size < uintmaxMax / users) : 2 ^ 32 ≤ remaining size users := by
  have hmax : uintmaxMax < (uintmaxMax / users + 1) * users := by
    rw [mul_comm]
    exact Nat.lt_mul_div_succ _ hpos
  have hsize : uintmaxMax / users * users ≤ size * users := Nat.mul_le_mul_right _ (not_lt.mp h)
  have hlarge : 2 ^ 63 ≤ size * users := by
    rw [Nat.add_mul] at hmax
    simp only [uintmaxMax] at hmax hsize
    omega
  have hquotient : 2 ^ 63 / 2 ^ 20 / 170 ≤ size * users / 2 ^ 20 / 170 :=
    Nat.div_le_div_right (Nat.div_le_div_right hlarge)
  exact le_trans (by decide) (hquotient.trans (le_max_right _ _))

theorem timeRemaining_eq (husers : users < 2 ^ 32) (h : remaining size users < 2 ^ 32) :
    timeRemaining size users = remaining size users := by
  have hfits : size * users / 2 ^ 20 / 170 < 2 ^ 32 := (le_max_right _ _).trans_lt h
  rw [timeRemaining]
  by_cases hpos : users > 0
  · have hguard : users > 0 ∧ size < uintmaxMax / users :=
      ⟨hpos, by_contra fun hrefused => not_lt.mpr (remaining_of_refused hpos husers hrefused) h⟩
    rw [if_pos hguard]
    exact congrArg (max 1) (Nat.mod_eq_of_lt hfits)
  · obtain rfl : users = 0 := by omega
    rw [if_neg fun h => hpos h.1]
    simp [remaining, uint32]

def sentTime (users size : Nat) : Int := int32 (timeRemaining size (uint32 users))

theorem sentTime_eq (husers : users < 2 ^ 32) (h : remaining size users < 2 ^ 31) :
    sentTime users size = remaining size users := by
  have hidsize : uint32 users = users := Nat.mod_eq_of_lt husers
  rw [sentTime, hidsize, timeRemaining_eq husers (h.trans (by decide))]
  exact int32_of_lt h

end time

section run

variable {C α : Type}

def folderSize : (o : ProcessOp C) → o.Reply → Option Nat
  | .getFolderSize _, size => some size
  | _, _ => none

abbrev sized (C : Type) : Semantics (processSig C) (Process C × List Nat) Io :=
  Program.traced (processSemantics C) folderSize

theorem run_sized (p : ProcessTask C α) (s : Process C) (log : List Nat) (ios : List Io) :
    (p.run (sized C) (s, log) ios).1 = (p.run (processSemantics C) s ios).1 ∧
      (p.run (sized C) (s, log) ios).2.1 = (p.run (processSemantics C) s ios).2 :=
  Program.run_traced p s log ios

def Quiet : ProcessOp C → Prop
  | .getFolderSize _ => False
  | .setCallback _ => False
  | .handle _ _ _ => False
  | _ => True

theorem quiet_copying : AdmitsCopying (C := C) Quiet where
  font _ := trivial
  getDirFiles _ := trivial
  isEmptyFolder _ := trivial
  openFile _ := trivial
  copyFile _ _ := trivial
  renameFile _ _ := trivial

def progressEvent (request users n : Nat) (c : C) (i size : Nat) : Delivery C :=
  ⟨request, c, .progressDoing (sentTime users size) (sentPercentage n i)⟩

-- Without a callback there is nobody to send to.
def progressEvents (request users n : Nat) (callback : Option C) (is sizes : List Nat) :
    List (Delivery C) :=
  callback.elim [] fun c => List.zipWith (progressEvent request users n c) is sizes

structure Sent (request users n : Nat) (is : List Nat) (s s' : Process C × List Nat) : Prop where
  callback : s'.1.callback = s.1.callback
  events : ∃ sizes, s'.2 = s.2 ++ sizes ∧ sizes.length = is.length ∧
    s'.1.delivered = s.1.delivered ++ progressEvents request users n s.1.callback is sizes

variable {request users n : Nat} {is js : List Nat} {s s' s'' : Process C × List Nat}

theorem progressEvents_nil (callback : Option C) :
    progressEvents request users n callback [] [] = [] := by cases callback <;> rfl

theorem Sent.refl (s : Process C × List Nat) : Sent request users n [] s s :=
  ⟨rfl, [], by simp, rfl, by simp [progressEvents_nil]⟩

theorem Sent.trans (h : Sent request users n is s s') (h' : Sent request users n js s' s'') :
    Sent request users n (is ++ js) s s'' := by
  obtain ⟨sizes, hlog, hlength, hdelivered⟩ := h.events
  obtain ⟨sizes', hlog', hlength', hdelivered'⟩ := h'.events
  refine ⟨h'.callback.trans h.callback, sizes ++ sizes', ?_, ?_, ?_⟩
  · rw [hlog', hlog, List.append_assoc]
  · rw [List.length_append, List.length_append, hlength, hlength']
  · rw [hdelivered', hdelivered, h.callback, List.append_assoc]
    cases s.1.callback with
    | none => rfl
    | some c => simp only [progressEvents, Option.elim_some, List.zipWith_append hlength.symm]

theorem quiet_step (o : ProcessOp C) (io : Io) (ho : Quiet o) (h : Sent request users n is s s') :
    Sent request users n is s ((sized C).exec s' o io).2 := by
  obtain ⟨sizes, hlog, hlength, hdelivered⟩ := h.events
  have hsame : ((sized C).exec s' o io).2.1.callback = s'.1.callback ∧
      ((sized C).exec s' o io).2.2 = s'.2 ∧
      ((sized C).exec s' o io).2.1.delivered = s'.1.delivered := by
    cases o with
    | getFolderSize path => exact ho.elim
    | setCallback callback => exact ho.elim
    | handle request callback event => exact ho.elim
    | postTask task =>
      refine ⟨?_, List.append_nil _, ?_⟩
      · show (if io.ok then _ else s'.1).callback = _
        split <;> rfl
      · show (if io.ok then _ else s'.1).delivered = _
        split <;> rfl
    | _ => exact ⟨rfl, List.append_nil _, rfl⟩
  exact ⟨hsame.1.trans h.callback, sizes, hsame.2.1.trans hlog, hlength,
    hsame.2.2.trans hdelivered⟩

abbrev Sends (p : ProcessTask C α) (Q : α → Process C × List Nat → Prop)
    (s : Process C × List Nat) : Prop := Program.wp (sized C) (fun _ _ _ => True) p Q s

theorem sends_startOneFileCopyTask (userIds : List Int) (path : Str) (s : Process C × List Nat) :
    Sends (startOneFileCopyTask userIds path) (fun _ s' => Sent request users n [] s s') s :=
  Program.wp_of_always (fun _ o io ho h => quiet_step o io ho h)
    (quiet_copying.startOneFileCopyTask userIds path) (.refl s)

theorem sends_eventDataProgress (i : Nat) (s : Process C × List Nat) :
    Sends (eventDataProgress request i n (uint32 users))
      (fun _ s' => Sent request users n [i] s s') s := by
  obtain ⟨⟨_, _, _, _, _, callback, _, _, _⟩, log⟩ := s
  intro io _ _ _
  cases callback with
  | none =>
    refine ⟨rfl, [io.sent.getD 0], List.append_nil _, rfl, ?_⟩
    exact (List.append_nil _).symm
  | some c =>
    intro _ _
    exact ⟨rfl, [io.sent.getD 0], (List.append_nil _).trans (List.append_nil _), rfl, rfl⟩

def triggeredFrom (n i length : Nat) : List Nat :=
  (List.range' i length).filter fun i => isShouldUpdateProgress i n

theorem sends_migrateFiles (userIds : List Int) (hfiles : n < 2 ^ 32) (paths : List Str) (i : Nat)
    (hn : i + paths.length = n) (s : Process C × List Nat) :
    Sends (migrateFiles request userIds n i paths)
      (fun code s' => code = .ok →
        Sent request userIds.length n (triggeredFrom n i paths.length) s s') s := by
  induction paths generalizing i s with
  | nil => exact fun _ => .refl s
  | cons path rest ih =>
    rw [List.length_cons] at hn
    have hsize : uint32 n = n := Nat.mod_eq_of_lt hfiles
    have hi : uint32 i = i := Nat.mod_eq_of_lt (by omega)
    have copied (s : Process C × List Nat) : Sends (do
        let ret ← startOneFileCopyTask userIds path
        if ret ≠ .ok then pure ret else migrateFiles request userIds n (i + 1) rest)
        (fun code s' => code = .ok →
          Sent request userIds.length n (triggeredFrom n (i + 1) rest.length) s s') s := by
      have hfile : Sends (startOneFileCopyTask userIds path)
          (fun _ s' => Sent request userIds.length n [] s s') s :=
        sends_startOneFileCopyTask userIds path s
      refine .bind (hfile.mono fun ret s' hs' => ?_)
      by_cases hret : ret = .ok
      · rw [if_neg (not_not.mpr hret)]
        exact (ih (i + 1) (by omega) s').mono fun _ _ hrest hok => hs'.trans (hrest hok)
      · rw [if_pos hret]
        exact fun hok => absurd hok hret
    unfold migrateFiles
    rw [hi, hsize, List.length_cons, triggeredFrom, List.range'_succ]
    by_cases hshould : isShouldUpdateProgress i n = true
    · rw [if_pos hshould, List.filter_cons, if_pos hshould]
      refine .bind ((sends_eventDataProgress i s).mono fun _ s' hs' => ?_)
      exact (copied s').mono fun _ _ hrest hok => hs'.trans (hrest hok)
    · rw [if_neg hshould, List.filter_cons, if_neg hshould]
      exact copied s

def listing (s : Process C) : List Str := (s.world.files (locate installPathApp)).map joinPath

theorem sends_startDataMigration (userIds : List Int) (s : Process C × List Nat)
    (hfiles : (listing s.1).length < 2 ^ 32) :
    Sends (startDataMigration request userIds)
      (fun code s' => code = .ok → Sent request userIds.length (listing s.1).length
        (triggered (listing s.1).length) s s') s := by
  obtain ⟨s, log⟩ := s
  intro io _
  show Sends (migrateFiles request userIds (listing s).length 0 (listing s)) _ (s, log ++ [])
  have hall : triggered (listing s).length = triggeredFrom (listing s).length 0 (listing s).length := by
    rw [triggered, triggeredFrom, List.range_eq_range']
  rw [List.append_nil, hall]
  exact sends_migrateFiles userIds hfiles (listing s) 0 (Nat.zero_add _) (s, log)

def folderSizes (request : Nat) (userIds : List Int) (s : Process C) (ios : List Io) : List Nat :=
  ((startDataMigration request userIds).run (sized C) (s, []) ios).2.2

structure Reported (limit request users n : Nat) (sizes : List Nat) (s s' : Process C) : Prop where
  events : s'.delivered =
    s.delivered ++ progressEvents request users n s.callback (triggered n) sizes
  answered : sizes.length = (triggered n).length
  rule : ∀ i, i ∈ triggered n ↔ i < n ∧ Triggers n i
  first : (triggered n).head? = some 0
  few : n ≤ 100 → (triggered n).length = n
  many : 100 < n → (triggered n).length ≤ 100
  ordered : ((triggered n).map (sentPercentage n)).Pairwise (· ≤ ·)
  bounded : ∀ i ∈ triggered n, 0 ≤ sentPercentage n i ∧ sentPercentage n i ≤ 100
  divisor : n ≠ 0
  percentage : ∀ i ∈ triggered n,
    i * 100 + n / 2 < 2 ^ 64 ∧ sentPercentage n i = ((i * 100 + n / 2) / n : Nat)
  product : ∀ size ∈ sizes, uint32 users > 0 ∧ size < uintmaxMax / uint32 users →
    size * uint32 users < 2 ^ 64
  time : ∀ size ∈ sizes, remaining size users < limit → sentTime users size = remaining size users

theorem progress_reported {s : Process C} (request : Nat) {userIds : List Int} (ios : List Io)
    (hpos : 1 ≤ (listing s).length) (hfiles : (listing s).length < 2 ^ 32)
    (husers : userIds.length < 2 ^ 32)
    (hok : ((startDataMigration request userIds).run (processSemantics C) s ios).1 = .ok) :
    Reported (2 ^ 31) request userIds.length (listing s).length (folderSizes request userIds s ios) s
      ((startDataMigration request userIds).run (processSemantics C) s ios).2 := by
  have hsends : Sends (startDataMigration request userIds) _ (s, []) :=
    sends_startDataMigration userIds (s, []) hfiles
  have hsent : ((startDataMigration request userIds).run (sized C) (s, []) ios).1 = .ok →
      Sent request userIds.length (listing s).length (triggered (listing s).length) (s, [])
        ((startDataMigration request userIds).run (sized C) (s, []) ios).2 :=
    Program.run_of_wp (sized C) (fun _ => True) trivial hsends fun _ _ => trivial
  obtain ⟨hreply, hstate⟩ := run_sized (startDataMigration request userIds) s [] ios
  obtain ⟨sizes, hlog, hlength, hdelivered⟩ := (hsent (hreply.trans hok)).events
  obtain rfl : folderSizes request userIds s ios = sizes := hlog.trans (List.nil_append sizes)
  constructor
  case events => rw [← hstate, hdelivered]
  case answered => exact hlength
  case rule => exact fun i => by rw [mem_triggered_iff, should_iff_triggers]
  case first => exact triggered_head hpos
  case few => exact fun hn => by rw [triggered_few hn, List.length_range]
  case many => exact triggered_many
  case ordered => exact percentages_ordered _
  case bounded =>
    intro i hi
    have hle := percentage_le (mem_triggered hi).1
    rw [sentPercentage_eq (mem_triggered hi).1]
    exact ⟨Int.natCast_nonneg _, by exact_mod_cast hle⟩
  case divisor => omega
  case percentage =>
    intro i hi
    obtain ⟨hlt, -⟩ := mem_triggered hi
    exact ⟨by omega, sentPercentage_eq hlt⟩
  case product => exact fun size _ => no_overflow_of_guard
  case time => exact fun size _ => sentTime_eq husers

end run

section crowd

def crowdPath : Str := installPathApp ++ "a.ttf".toList

def oneFile : Process Unit where
  world :=
    { tree := [(locate crowdPath, .bytes [1]), (locate (userPath 100 ++ "a.ttf".toList), .bytes [1])]
      registry := .empty
      maxInstallNum := 200
      createdUserIds := [100]
      published := [] }
  callingCount := 0
  isDataMigrationing := true
  pending := []
  migrating := true
  callback := some ()
  heartBeatThread := none
  heartBeats := []
  delivered := []

abbrev Completes {α : Type} (p : ProcessTask Unit α) (Q : α → Process Unit × List Nat → Prop)
    (s : Process Unit × List Nat) : Prop := Program.wp (sized Unit) (fun _ _ io => io.ok = true) p Q s

namespace Completes

variable {s : Process Unit × List Nat}

theorem copyToUsers (k : Nat) (hs : s.1.world = oneFile.world) :
    Completes (copyToUsers crowdPath (List.replicate k 100)) (fun code s' => code = .ok ∧ s' = s) s := by
  obtain ⟨s, log⟩ := s
  induction k with
  | zero => exact ⟨rfl, rfl⟩
  | succ k ih =>
    intro io hio
    have hfound : (decide (userPath 100 ++ getFileName crowdPath ≠ []) && io.ok &&
        s.world.pathExists (userPath 100 ++ getFileName crowdPath)) = true := by
      rw [hio, show s.world = oneFile.world from hs]
      decide
    show Completes ((if (decide (userPath 100 ++ getFileName crowdPath ≠ []) && io.ok &&
        s.world.pathExists (userPath 100 ++ getFileName crowdPath)) = true then pure .ok else _) >>=
      fun ret => if ret ≠ .ok then pure ret
        else DataMigrationManager.copyToUsers crowdPath (List.replicate k 100)) _ (s, log ++ [])
    rw [hfound, List.append_nil]
    exact ih

theorem removeFile (path : Str) :
    Completes (font (FontManagerUtils.removeFile path)) (fun removed s' => removed = true ∧ s'.2 = s.2)
      s := by
  intro io _
  show Completes (font (if (decide (path ≠ []) && io.ok && s.1.world.pathExists path) = true
    then removeAll path else pure true)) _ (s.1, s.2 ++ [])
  split
  · intro io' hio'
    show (s.1.world.removeAll path io').1 = true ∧ s.2 ++ [] ++ [] = s.2
    rw [World.removeAll, if_pos hio', List.append_nil, List.append_nil]
    exact ⟨rfl, rfl⟩
  · exact ⟨rfl, List.append_nil _⟩

theorem startOneFileCopyTask (k : Nat) (hs : s.1.world = oneFile.world) :
    Completes (startOneFileCopyTask (List.replicate k 100) crowdPath)
      (fun code s' => code = .ok ∧ s'.2 = s.2) s := by
  refine .bind ((copyToUsers k hs).mono fun code s' hcopied => ?_)
  obtain ⟨rfl, rfl⟩ := hcopied
  refine .bind ((removeFile crowdPath).mono fun removed s'' hremoved => ?_)
  obtain ⟨rfl, hlog⟩ := hremoved
  exact ⟨rfl, hlog⟩

theorem refreshEventData (event : EventData) :
    Completes (refreshEventData 0 event) (fun _ s' => s'.1.world = s.1.world ∧ s'.2 = s.2) s := by
  obtain ⟨⟨_, _, _, _, _, callback, _, _, _⟩, log⟩ := s
  intro _ _
  cases callback with
  | none => exact ⟨rfl, List.append_nil _⟩
  | some callback =>
    intro _ _
    exact ⟨rfl, (List.append_nil _).trans (List.append_nil _)⟩

end Completes

theorem crowd_rest (k size : Nat) (event : EventData) :
    Completes (refreshEventData 0 event >>= fun _ =>
        startOneFileCopyTask (List.replicate k 100) crowdPath >>= fun ret =>
          if ret ≠ .ok then pure ret else pure .ok)
      (fun code s' => code = .ok ∧ s'.2 = [size]) (oneFile, [size]) := by
  refine .bind ((Completes.refreshEventData event).mono fun _ s hsent => ?_)
  obtain ⟨hworld, hlog⟩ := hsent
  refine .bind ((Completes.startOneFileCopyTask k hworld).mono fun code s' hcopied => ?_)
  obtain ⟨rfl, hlog'⟩ := hcopied
  exact ⟨rfl, hlog'.trans hlog⟩

def sizedAs (size : Nat) : List Io := [default, { sent := some size }]

theorem crowd_run (k size : Nat) :
    ((startDataMigration 0 (List.replicate k 100)).run (processSemantics Unit) oneFile
      (sizedAs size)).1 = .ok ∧
      folderSizes 0 (List.replicate k 100) oneFile (sizedAs size) = [size] := by
  have hlist : listing oneFile = [crowdPath] := by decide
  have hios : ∀ io ∈ ([] : List Io), io.ok = true := by simp
  have hrest := Program.run_of_wp (sized Unit) (fun io => io.ok = true) rfl
    (crowd_rest k size (.progressDoing (sentTime (List.replicate k (100 : Int)).length size)
      (sentPercentage 1 0))) hios
  have hrun : (startDataMigration 0 (List.replicate k 100)).run (sized Unit) (oneFile, [])
      (sizedAs size) =
      (migrateFiles 0 (List.replicate k 100) (listing oneFile).length 0 (listing oneFile)).run
        (sized Unit) (oneFile, []) [{ sent := some size }] := rfl
  rw [← (run_sized (startDataMigration 0 (List.replicate k 100)) oneFile [] (sizedAs size)).1,
    folderSizes, hrun, hlist]
  exact hrest

theorem time_of_reported {limit k size : Nat}
    (h : Reported limit 0 (List.replicate k (100 : Int)).length (listing oneFile).length
      (folderSizes 0 (List.replicate k 100) oneFile (sizedAs size)) oneFile
      ((startDataMigration 0 (List.replicate k 100)).run (processSemantics Unit) oneFile
        (sizedAs size)).2)
    (hlimit : remaining size k < limit) : sentTime k size = remaining size k := by
  have htime := h.time size (by rw [(crowd_run k size).2]; exact List.mem_singleton_self size)
  rw [List.length_replicate] at htime
  exact htime hlimit

-- One user with a folder of 2^31 times 170 MB is told -2^31 minutes, and 2^32 users with a folder of
-- one byte are told one minute for 24.
theorem time_misreported :
    (¬ ∀ (s : Process Unit) (request : Nat) (userIds : List Int) (ios : List Io),
      1 ≤ (listing s).length → (listing s).length < 2 ^ 32 → userIds.length < 2 ^ 32 →
      ((startDataMigration request userIds).run (processSemantics Unit) s ios).1 = .ok →
      Reported (2 ^ 32) request userIds.length (listing s).length
        (folderSizes request userIds s ios) s
        ((startDataMigration request userIds).run (processSemantics Unit) s ios).2) ∧
    ¬ ∀ (s : Process Unit) (request : Nat) (userIds : List Int) (ios : List Io),
      1 ≤ (listing s).length → (listing s).length < 2 ^ 32 →
      ((startDataMigration request userIds).run (processSemantics Unit) s ios).1 = .ok →
      Reported (2 ^ 31) request userIds.length (listing s).length
        (folderSizes request userIds s ios) s
        ((startDataMigration request userIds).run (processSemantics Unit) s ios).2 := by
  have hone : (listing oneFile).length = 1 := by decide
  refine ⟨fun h => ?_, fun h => ?_⟩
  · have hreported := h oneFile 0 (List.replicate 1 100) (sizedAs (2 ^ 31 * 170 * 2 ^ 20))
      (by rw [hone]) (by rw [hone]; decide) (by decide) (crowd_run 1 _).1
    exact absurd (time_of_reported hreported (by decide)) (by decide)
  · have hreported := h oneFile 0 (List.replicate (2 ^ 32) 100) (sizedAs 1) (by rw [hone])
      (by rw [hone]; decide) (crowd_run (2 ^ 32) 1).1
    exact absurd (time_of_reported hreported (by decide)) (by decide)

theorem one_user_reported :
    Reported (2 ^ 31) 0 1 1 [1] oneFile
      ((startDataMigration 0 [100]).run (processSemantics Unit) oneFile (sizedAs 1)).2 := by
  obtain ⟨hok, hsizes⟩ : _ ∧ folderSizes 0 [100] oneFile (sizedAs 1) = [1] := crowd_run 1 1
  have hone : (listing oneFile).length = 1 := by decide
  have hreported := progress_reported 0 (sizedAs 1) (by rw [hone]) (by rw [hone]; decide)
    (by decide) hok
  rw [hone] at hreported
  exact hsizes ▸ hreported

end crowd

end DataMigrationManager
