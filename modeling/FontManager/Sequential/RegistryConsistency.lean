import FontManager.Source.Registry
import Mathlib.Algebra.Order.BigOperators.Group.Finset

open FontDefine FontManagerUtils

inductive RegistryCall where
  | registerClient (hasBinder linked : Bool) (bundleName : Str) (userId tokenId : Int)
  | unregisterClient (tokenId : Int)
  | onClientDied (tokenId : Int)

namespace FontClientRegistry

variable {r : FontClientRegistry} {t u : Int}

def enrol (bundleName : Str) (userId tokenId : Int) (r : FontClientRegistry) :
    FontClientRegistry where
  clients := (tokenId,
    { bundleName, userId, tokenId, appIdentifier := buildAppIdentifier fontScopeApp tokenId })
    :: r.clients
  userClients := fun u => if u = userId then insertToken tokenId (r.userClients u)
    else r.userClients u

def call (r : FontClientRegistry) : RegistryCall → FontClientRegistry
  | .registerClient hasBinder linked bundleName userId tokenId =>
    (r.registerClient hasBinder linked bundleName userId tokenId).2
  | .unregisterClient tokenId => (r.eraseClient tokenId).2
  | .onClientDied tokenId => (r.eraseClient tokenId).2

def calls (r : FontClientRegistry) (cs : List RegistryCall) : FontClientRegistry :=
  cs.foldl call r

theorem info_cons (t t' : Int) (i : ClientInfo) (users : Int → List Int) :
    info ⟨(t, i) :: r.clients, users⟩ t' = if t' = t then some i else r.info t' := by
  simp only [info, List.lookup_cons]
  by_cases h : t' = t
  · simp [h]
  · simp [h, beq_eq_false_iff_ne.mpr h]

theorem info_filter (t t' : Int) (users : Int → List Int) :
    info ⟨r.clients.filter fun c => c.1 ≠ t, users⟩ t' = if t' = t then none else r.info t' := by
  simp only [info]
  induction r.clients with
  | nil => simp
  | cons c clients ih =>
    by_cases hc : c.1 = t
    · rw [List.filter_cons_of_neg (by simpa using hc), ih, List.lookup_cons]
      by_cases ht : t' = t
      · simp [ht]
      · simp [ht, beq_eq_false_iff_ne.mpr fun h => ht (h.trans hc)]
    · rw [List.filter_cons_of_pos (by simpa using hc), List.lookup_cons, List.lookup_cons, ih]
      by_cases ht : t' = t
      · simp [ht, beq_eq_false_iff_ne.mpr fun h => hc h.symm]
      · simp [ht]

theorem registerClient_cases (hasBinder linked : Bool) (bundleName : Str) (userId tokenId : Int) :
    (r.registerClient hasBinder linked bundleName userId tokenId).1 ≠ .ok ∧
        (r.registerClient hasBinder linked bundleName userId tokenId).2 = r ∨
      r.info tokenId = none ∧ ((r.userClients userId).length : Int) < maxScopeFontAppNum ∧
        r.registerClient hasBinder linked bundleName userId tokenId =
          (.ok, r.enrol bundleName userId tokenId) := by
  unfold registerClient
  split
  · exact Or.inl ⟨by simp, rfl⟩
  · rename_i hnone
    split
    · exact Or.inl ⟨by simp, rfl⟩
    · rename_i hlimit
      split
      · exact Or.inl ⟨by simp, rfl⟩
      · split
        · exact Or.inr ⟨by simpa using hnone, by omega, rfl⟩
        · exact Or.inl ⟨by simp, rfl⟩

theorem eraseClient_reply (tokenId : Int) :
    (r.eraseClient tokenId).1 = (r.info tokenId).map fun i => (i.appIdentifier, i.userId) := by
  unfold eraseClient
  cases r.info tokenId <;> rfl

theorem info_eraseClient (tokenId t : Int) :
    (r.eraseClient tokenId).2.info t = if t = tokenId then none else r.info t := by
  unfold eraseClient
  cases hinfo : r.info tokenId with
  | none =>
    by_cases ht : t = tokenId
    · rw [if_pos ht, ht]
      exact hinfo
    · rw [if_neg ht]
  | some it => exact info_filter tokenId t _

structure Consistent (r : FontClientRegistry) : Prop where
  keys : (r.clients.map (·.1)).Nodup
  tokens : ∀ u, (r.userClients u).Nodup
  indexed : ∀ t u, t ∈ r.userClients u ↔ ∃ i, r.info t = some i ∧ i.userId = u
  limit : ∀ u, ((r.userClients u).length : Int) ≤ maxScopeFontAppNum
  entry : ∀ t i, r.info t = some i →
    i.tokenId = t ∧ i.appIdentifier = appFontDirPrefix ++ Text.decimal t

theorem info_isSome : (r.info t).isSome = true ↔ t ∈ r.clients.map (·.1) := by
  simp only [info, List.lookup_isSome_iff, List.mem_map, beq_iff_eq]
  exact exists_congr fun c => and_congr_right fun _ => eq_comm

theorem insertToken_of_not_mem {tokens : List Int} (h : t ∉ tokens) :
    insertToken t tokens = t :: tokens := by
  simp [insertToken, h]

namespace Consistent

theorem empty : Consistent .empty where
  keys := List.nodup_nil
  tokens _ := List.nodup_nil
  indexed := by simp [FontClientRegistry.empty, info]
  limit _ := show (0 : Int) ≤ maxScopeFontAppNum by decide
  entry := by simp [FontClientRegistry.empty, info]

theorem not_mem (h : Consistent r) (hnone : r.info t = none) (u : Int) : t ∉ r.userClients u := by
  intro hmem
  obtain ⟨i, hi, -⟩ := (h.indexed t u).mp hmem
  rw [hnone] at hi
  cases hi

theorem enrol (h : Consistent r) (bundleName : Str) (hnone : r.info t = none)
    (hlimit : ((r.userClients u).length : Int) < maxScopeFontAppNum) :
    Consistent (r.enrol bundleName u t) := by
  have husers : ∀ v, (r.enrol bundleName u t).userClients v =
      if v = u then t :: r.userClients u else r.userClients v := by
    intro v
    by_cases hv : v = u
    · subst hv
      simp [FontClientRegistry.enrol, insertToken_of_not_mem (h.not_mem hnone v)]
    · simp [FontClientRegistry.enrol, hv]
  refine ⟨?_, fun v => ?_, fun t' v => ?_, fun v => ?_, fun t' i hi => ?_⟩
  · refine List.nodup_cons.mpr ⟨fun hmem => ?_, h.keys⟩
    have hsome := info_isSome.mpr hmem
    rw [hnone] at hsome
    cases hsome
  · rw [husers]
    split
    · exact List.nodup_cons.mpr ⟨h.not_mem hnone u, h.tokens u⟩
    · exact h.tokens v
  · rw [husers, FontClientRegistry.enrol, info_cons]
    by_cases ht : t' = t
    · subst ht
      by_cases hv : v = u
      · simp [hv]
      · simp [hv, h.not_mem hnone v, Ne.symm hv]
    · by_cases hv : v = u
      · subst hv
        simp [ht, h.indexed t' v]
      · simp [ht, hv, h.indexed t' v]
  · rw [husers]
    split
    · rw [List.length_cons]
      omega
    · exact h.limit v
  · rw [FontClientRegistry.enrol, info_cons] at hi
    split at hi
    · rename_i ht
      obtain rfl := Option.some.inj hi
      exact ⟨ht.symm, by rw [ht]; rfl⟩
    · exact h.entry t' i hi

theorem eraseClient (h : Consistent r) (t : Int) : Consistent (r.eraseClient t).2 := by
  cases hinfo : r.info t with
  | none =>
    rw [FontClientRegistry.eraseClient, hinfo]
    exact h
  | some it =>
    have husers : ∀ v, (r.eraseClient t).2.userClients v =
        if v = it.userId then (r.userClients v).erase t else r.userClients v := by
      simp [FontClientRegistry.eraseClient, hinfo]
    have hclients : (r.eraseClient t).2.clients = r.clients.filter fun c => c.1 ≠ t := by
      simp [FontClientRegistry.eraseClient, hinfo]
    refine ⟨?_, fun v => ?_, fun t' v => ?_, fun v => ?_, fun t' i hi => ?_⟩
    · rw [hclients]
      exact h.keys.sublist (List.filter_sublist.map _)
    · rw [husers]
      split
      · exact (h.tokens v).erase t
      · exact h.tokens v
    · rw [husers, info_eraseClient]
      by_cases ht : t' = t
      · subst ht
        by_cases hv : v = it.userId
        · simp [hv, (h.tokens it.userId).mem_erase_iff]
        · simp [hv, h.indexed t' v, hinfo, Ne.symm hv]
      · by_cases hv : v = it.userId
        · simp [hv, ht, List.mem_erase_of_ne ht, h.indexed]
        · simp [hv, ht, h.indexed]
    · rw [husers]
      split
      · exact Int.le_trans (Int.ofNat_le.mpr List.erase_sublist.length_le) (h.limit v)
      · exact h.limit v
    · rw [info_eraseClient] at hi
      split at hi
      · cases hi
      · exact h.entry t' i hi

theorem registerClient (h : Consistent r) (hasBinder linked : Bool) (bundleName : Str)
    (userId tokenId : Int) :
    Consistent (r.registerClient hasBinder linked bundleName userId tokenId).2 := by
  rcases registerClient_cases (r := r) hasBinder linked bundleName userId tokenId with
    ⟨-, heq⟩ | ⟨hnone, hlimit, heq⟩
  · rwa [heq]
  · rw [heq]
    exact h.enrol bundleName hnone hlimit

theorem call (h : Consistent r) (c : RegistryCall) : Consistent (r.call c) := by
  cases c with
  | registerClient hasBinder linked bundleName userId tokenId =>
    exact h.registerClient hasBinder linked bundleName userId tokenId
  | unregisterClient tokenId => exact h.eraseClient tokenId
  | onClientDied tokenId => exact h.eraseClient tokenId

theorem calls (h : Consistent r) (cs : List RegistryCall) : Consistent (r.calls cs) := by
  induction cs generalizing r with
  | nil => exact h
  | cons c cs ih => exact ih (h.call c)

theorem owner_unique (h : Consistent r) {v : Int} (hu : t ∈ r.userClients u)
    (hv : t ∈ r.userClients v) : u = v := by
  obtain ⟨i, hi, rfl⟩ := (h.indexed t u).mp hu
  obtain ⟨j, hj, rfl⟩ := (h.indexed t v).mp hv
  rw [hi] at hj
  rw [Option.some.inj hj]

theorem count (h : Consistent r) {users : Finset Int}
    (husers : ∀ u, r.userClients u ≠ [] → u ∈ users) :
    r.getClientCount = ∑ u ∈ users, (r.userClients u).length := by
  have hunion : (r.clients.map (·.1)).toFinset =
      users.biUnion fun u => (r.userClients u).toFinset := by
    ext t
    rw [List.mem_toFinset, ← info_isSome, Finset.mem_biUnion]
    constructor
    · intro hsome
      obtain ⟨i, hi⟩ := Option.isSome_iff_exists.mp hsome
      have hmem : t ∈ r.userClients i.userId := (h.indexed t _).mpr ⟨i, hi, rfl⟩
      exact ⟨i.userId, husers _ (List.ne_nil_of_mem hmem), List.mem_toFinset.mpr hmem⟩
    · rintro ⟨u, -, hmem⟩
      obtain ⟨i, hi, -⟩ := (h.indexed t u).mp (List.mem_toFinset.mp hmem)
      rw [hi]
      rfl
  have hdisjoint : Set.PairwiseDisjoint (users : Set Int) fun u => (r.userClients u).toFinset := by
    intro u _ v _ huv
    refine Finset.disjoint_left.mpr fun t hu hv => huv ?_
    exact h.owner_unique (List.mem_toFinset.mp hu) (List.mem_toFinset.mp hv)
  calc r.getClientCount = (r.clients.map (·.1)).toFinset.card := by
        rw [List.toFinset_card_of_nodup h.keys, List.length_map, getClientCount]
    _ = ∑ u ∈ users, (r.userClients u).toFinset.card := by
        rw [hunion, Finset.card_biUnion hdisjoint]
    _ = ∑ u ∈ users, (r.userClients u).length :=
        Finset.sum_congr rfl fun u _ => List.toFinset_card_of_nodup (h.tokens u)

theorem count_fits (h : Consistent r) {users : Finset Int}
    (husers : ∀ u, r.userClients u ≠ [] → u ∈ users) (hcard : users.card ≤ 2 ^ 31 / 200000 + 1) :
    r.getClientCount < 2 ^ 31 := by
  have hle : ∑ u ∈ users, (r.userClients u).length ≤ users.card • maxScopeFontAppNum.toNat :=
    Finset.sum_le_card_nsmul users _ _ fun u _ => Int.le_toNat (by decide) |>.mpr (h.limit u)
  rw [h.count husers]
  calc ∑ u ∈ users, (r.userClients u).length ≤ users.card * maxScopeFontAppNum.toNat := hle
    _ ≤ (2 ^ 31 / 200000 + 1) * maxScopeFontAppNum.toNat := Nat.mul_le_mul_right _ hcard
    _ < 2 ^ 31 := by decide

end Consistent

theorem registry_consistent (cs : List RegistryCall) :
    (∀ t u, (∃ i, (empty.calls cs).info t = some i ∧ i.userId = u) ↔
      t ∈ (empty.calls cs).userClients u) ∧
    (∀ t u v, t ∈ (empty.calls cs).userClients u → t ∈ (empty.calls cs).userClients v → u = v) ∧
    (∀ u, ((empty.calls cs).userClients u).Nodup ∧
      (((empty.calls cs).userClients u).length : Int) ≤ maxScopeFontAppNum) ∧
    (∀ users : Finset Int, (∀ u, (empty.calls cs).userClients u ≠ [] → u ∈ users) →
      (empty.calls cs).getClientCount = ∑ u ∈ users, ((empty.calls cs).userClients u).length) ∧
    (∀ t i, (empty.calls cs).info t = some i →
      i.tokenId = t ∧ i.appIdentifier = appFontDirPrefix ++ Text.decimal t) ∧
    ∀ hasBinder linked bundleName userId tokenId,
      ((empty.calls cs).registerClient hasBinder linked bundleName userId tokenId).1 ≠ .ok →
        ((empty.calls cs).registerClient hasBinder linked bundleName userId tokenId).2 =
          empty.calls cs := by
  have h : Consistent (empty.calls cs) := Consistent.empty.calls cs
  refine ⟨fun t u => (h.indexed t u).symm, fun t u v => h.owner_unique,
    fun u => ⟨h.tokens u, h.limit u⟩, fun users => h.count, h.entry, ?_⟩
  intro hasBinder linked bundleName userId tokenId hne
  rcases registerClient_cases (r := empty.calls cs) hasBinder linked bundleName userId tokenId with
    ⟨-, heq⟩ | ⟨-, -, heq⟩
  · exact heq
  · rw [heq] at hne
    exact absurd rfl hne

end FontClientRegistry
