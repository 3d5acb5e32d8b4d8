import FontManager.Store.Record

open FontDefine FontConfig Text CJson

namespace RecordCodec

variable {r : FontRecordInfo}

-- The fields that ConstructScopeCJSON writes only if they are not empty.
def optionals (r : FontRecordInfo) : List Str := [r.srcPath, r.appIdentifier, r.bundleName]

def strings (r : FontRecordInfo) : List Str := r.fontPath :: optionals r ++ r.fullNames

def Int32 (n : Int) : Prop := intMin ≤ n ∧ n ≤ intMax

def StartsNul (s : Str) : Prop := s.head? = some '\x00'

instance (n : Int) : Decidable (Int32 n) := inferInstanceAs (Decidable (_ ∧ _))

instance (s : Str) : Decidable (StartsNul s) := inferInstanceAs (Decidable (_ = _))

theorem clamp_of_int32 {n : Int} (h : Int32 n) : Record.clamp n = n := by
  obtain ⟨hmin, hmax⟩ := h
  rw [Record.clamp, min_eq_right hmax, max_eq_right hmin]

theorem cStr_eq_nil {s : Str} : cStr s = [] ↔ s = [] ∨ StartsNul s := by
  cases s with
  | nil => simp [cStr]
  | cons c s => by_cases hc : c = '\x00' <;> simp [cStr, StartsNul, hc]

theorem optional_getD {s : Str} (h : NulFree s) : (Record.optional s).getD [] = s := by
  by_cases hs : s = []
  · simp [Record.optional, hs]
  · rw [Record.optional_of_nulFree hs h, Option.getD_some]

theorem scope_ofInfo (h : Int32 r.scope) :
    ((Record.ofInfo r).scope.map Record.clamp).getD fontScopeNone =
      if r.scope ≥ 0 then r.scope else fontScopeNone := by
  by_cases hs : r.scope ≥ 0
  · simp [Record.ofInfo, hs, clamp_of_int32 h]
  · simp [Record.ofInfo, hs]

theorem info_ofInfo (hmin : fontScopeNone ≤ r.scope) (hmax : r.scope ≤ intMax)
    (hnul : ∀ s ∈ strings r, NulFree s) : (Record.ofInfo r).info = r := by
  have hscope := scope_ofInfo (r := r) ⟨(by decide : intMin ≤ fontScopeNone).trans hmin, hmax⟩
  have hnone : (if r.scope ≥ 0 then r.scope else fontScopeNone) = r.scope := by
    split
    · rfl
    · simp only [fontScopeNone] at hmin ⊢
      omega
  have hpath : cStr r.fontPath = r.fontPath := cStr_of_nulFree (hnul _ (by simp [strings]))
  have hnames : r.fullNames.map cStr = r.fullNames :=
    (List.map_congr_left fun s hs => cStr_of_nulFree (hnul s (by simp [strings, hs]))).trans
      (List.map_id _)
  have hsrc := optional_getD (hnul r.srcPath (by simp [strings, optionals]))
  have happ := optional_getD (hnul r.appIdentifier (by simp [strings, optionals]))
  have hbundle := optional_getD (hnul r.bundleName (by simp [strings, optionals]))
  rw [hnone] at hscope
  obtain ⟨fontPath, fullNames, scope, srcPath, appIdentifier, bundleName⟩ := r
  simp only [Record.info, FontRecordInfo.mk.injEq]
  exact ⟨hpath, hnames, hscope, hsrc, happ, hbundle⟩

theorem parse_construct (r : FontRecordInfo) :
    parseScopeRecord (constructScopeCJSON r) = (Record.ofInfo r).info := by
  rw [Record.constructScopeCJSON_eq, Record.parseScopeRecord_item]

theorem optional_again {s : Str} :
    Record.optional ((Record.optional s).getD []) = Record.optional s ↔ ¬ StartsNul s := by
  by_cases hs : s = []
  · simp [Record.optional, hs, StartsNul]
  · rw [Record.optional, Record.optional, if_pos hs, Option.getD_some,
      cStr_of_nulFree (cStr_nulFree s)]
    by_cases hnil : cStr s = []
    · have hstart := (cStr_eq_nil.mp hnil).resolve_left hs
      simp [hnil, hstart]
    · have hstart : ¬ StartsNul s := fun h => hnil (cStr_eq_nil.mpr (Or.inr h))
      simp [hnil, hstart]

theorem scope_again (h : Int32 r.scope) :
    (Record.ofInfo (Record.ofInfo r).info).scope = (Record.ofInfo r).scope := by
  have hscope := scope_ofInfo h
  have hinfo : (Record.ofInfo r).info.scope = if r.scope ≥ 0 then r.scope else fontScopeNone := hscope
  show (if (Record.ofInfo r).info.scope ≥ 0 then some (Record.ofInfo r).info.scope else none) =
    if r.scope ≥ 0 then some r.scope else none
  rw [hinfo]
  by_cases hs : r.scope ≥ 0
  · simp only [if_pos hs]
  · simp only [if_neg hs]
    rfl

-- A field that is written as the empty string is not written again.
theorem ofInfo_again (h : Int32 r.scope) :
    Record.ofInfo (Record.ofInfo r).info = Record.ofInfo r ↔ ∀ s ∈ optionals r, ¬ StartsNul s := by
  have hpath : cStr (cStr r.fontPath) = cStr r.fontPath := cStr_of_nulFree (cStr_nulFree _)
  have hnames : (r.fullNames.map cStr).map cStr = r.fullNames.map cStr := by
    rw [List.map_map]
    exact List.map_congr_left fun s _ => cStr_of_nulFree (cStr_nulFree s)
  have hscope := scope_again h
  have hsame : Record.ofInfo (Record.ofInfo r).info = Record.ofInfo r ↔
      Record.optional ((Record.optional r.srcPath).getD []) = Record.optional r.srcPath ∧
        Record.optional ((Record.optional r.appIdentifier).getD []) =
          Record.optional r.appIdentifier ∧
        Record.optional ((Record.optional r.bundleName).getD []) = Record.optional r.bundleName := by
    rw [Record.mk.injEq]
    exact ⟨fun h => ⟨h.2.2.2.1, h.2.2.2.2.1, h.2.2.2.2.2⟩,
      fun h => ⟨hpath, hnames, hscope, h.1, h.2.1, h.2.2⟩⟩
  rw [hsame, optional_again, optional_again, optional_again]
  simp [optionals]

theorem codec_round_trips :
    (∀ r : FontRecordInfo, fontScopeNone ≤ r.scope → r.scope ≤ intMax →
      (∀ s ∈ strings r, NulFree s) → parseScopeRecord (constructScopeCJSON r) = r) ∧
    (∀ r : FontRecordInfo, Int32 r.scope →
      (constructScopeCJSON (parseScopeRecord (constructScopeCJSON r)) = constructScopeCJSON r ↔
        ∀ s ∈ optionals r, ¬ StartsNul s)) := by
  refine ⟨fun r hmin hmax hnul => ?_, fun r hr => ?_⟩
  · rw [parse_construct, info_ofInfo hmin hmax hnul]
  · rw [parse_construct, Record.constructScopeCJSON_eq, Record.constructScopeCJSON_eq,
      ← ofInfo_again hr]
    exact ⟨fun h => Record.item_injective h, fun h => by rw [h]⟩

def sample (srcPath : Str) : FontRecordInfo where
  fontPath := "/a.ttf".toList
  fullNames := ["A".toList, []]
  scope := fontScopeApp
  srcPath := srcPath

theorem sample_round_trips :
    parseScopeRecord (constructScopeCJSON (sample "/src".toList)) = sample "/src".toList ∧
      constructScopeCJSON (parseScopeRecord (constructScopeCJSON (sample "/src".toList))) =
        constructScopeCJSON (sample "/src".toList) :=
  ⟨codec_round_trips.1 _ (by decide) (by decide) (by decide),
    (codec_round_trips.2 _ (by decide)).mpr (by decide)⟩

theorem nul_field_lost :
    ¬ ∀ r : FontRecordInfo, Int32 r.scope →
      constructScopeCJSON (parseScopeRecord (constructScopeCJSON r)) = constructScopeCJSON r := by
  intro h
  have hsame := congrArg (fun item => stringItem item fontSrcPath) (h (sample ['\x00']) (by decide))
  simp only [Record.constructScopeCJSON_eq, Record.parseScopeRecord_item,
    Record.stringItem_fontSrcPath] at hsame
  exact absurd hsame (by decide)

end RecordCodec
