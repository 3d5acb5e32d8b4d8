import FontManager.Sequential.MigrationRun
import FontManager.Store.Versions

open FontDefine FontManagerUtils FontLocation FontConfig CJson Interaction DataMigrationManager
open Versions (known)

namespace Migration

variable {C : Type} {users : List Int} {u v : Int} {w w' w₁ w₂ : World} {l f g : Loc} {e e' : Entry}
  {fontNames : Entry → List Str} {ready : Int → World → Prop} {smooth : Prop}

structure Inside (u : Int) (l : Loc) : Prop where
  below : userDir u <+: l
  outsideTemp : ¬ userTemp u <+: l

namespace Inside

theorem not_shared (h : Inside u l) : ¬ publicDir <+: l := not_shared_of_below h.below

theorem ne_userTemp (h : Inside u l) (v : Int) : l ≠ userTemp v := by
  rintro rfl
  obtain rfl := userDir_unique h.below (List.prefix_append _ _)
  exact h.outsideTemp List.prefix_rfl

theorem ne_configLoc (h : Inside u l) (hne : l ≠ configLoc u) (v : Int) : l ≠ configLoc v := by
  rintro rfl
  obtain rfl := userDir_unique h.below (configLoc_below v)
  exact hne rfl

theorem not_tempLoc (h : Inside u l) (v : Int) (g : Loc) : ¬ tempLoc v g <+: l := by
  intro hl
  have htemp : userTemp v <+: tempLoc v g := ⟨[fileName g], by simp [userTemp, tempLoc]⟩
  obtain rfl := userDir_unique h.below ((List.prefix_append _ _).trans hl)
  exact h.outsideTemp (htemp.trans hl)

end Inside

structure Source (w : World) (g : Loc) (e : Entry) : Prop where
  shared : publicDir <+: g
  lasting : ¬ sharedTemp <+: g
  found : w.tree.lookup g = some e
  file : e.isFile = true

-- What a place in the user's directory holds in the end: its own entry, else that of a shared file.
def Destined (w : World) (u : Int) (l : Loc) (e : Entry) : Prop :=
  w.tree.lookup l = some e ∨ w.tree.lookup l = none ∧ ∃ g, Source w g e ∧ dest u g = l

def Distinct (w : World) : Prop :=
  ∀ f g e e', Source w f e → Source w g e' → fileName f = fileName g → f = g

theorem Distinct.unique (h : Distinct w) (hf : Source w f e) (hg : Source w g e')
    (hl : dest u f = dest u g) : f = g := h f g e e' hf hg (by simpa [dest] using hl)

theorem destined_congr (hl : w'.tree.lookup l = w.tree.lookup l)
    (hsource : ∀ g e, Source w' g e ↔ Source w g e) : Destined w' u l e ↔ Destined w u l e := by
  simp only [Destined, hl, hsource]

section phases

theorem Entered.same (h : Entered users w w') (hl : ¬ sharedTemp <+: l)
    (htemp : ∀ u ∈ users, l ≠ userTemp u) : w'.tree.lookup l = w.tree.lookup l := by
  rcases h.outside l hl with hsame | ⟨⟨u, hu, he⟩, -⟩
  · exact hsame
  · exact absurd he (htemp u hu)

theorem Entered.source_iff (h : Entered users w w') : Source w' g e ↔ Source w g e := by
  have same : publicDir <+: g → ¬ sharedTemp <+: g → w'.tree.lookup g = w.tree.lookup g :=
    fun hshared hlasting => h.same hlasting fun u _ he => userTemp_not_shared u (he ▸ hshared)
  constructor
  · exact fun hs => ⟨hs.shared, hs.lasting, same hs.shared hs.lasting ▸ hs.found, hs.file⟩
  · exact fun hs => ⟨hs.shared, hs.lasting, (same hs.shared hs.lasting).trans hs.found, hs.file⟩

theorem Entered.destined_iff (h : Entered users w w') (hl : Inside u l) :
    Destined w' u l e ↔ Destined w u l e :=
  destined_congr (h.same (fun ht => hl.not_shared (shared_of_temp ht)) fun v _ => hl.ne_userTemp v)
    fun _ _ => h.source_iff

theorem Copies.mem_files (h : Copies smooth users w w₁ w₂) :
    g ∈ w₁.files publicDir ↔ ∃ e, Source w₁ g e := by
  rw [Migration.mem_files h.orderly.unique]
  constructor
  · rintro ⟨hshared, e, he, hfile⟩
    refine ⟨e, hshared, fun htemp => ?_, he, hfile⟩
    have hcleared := h.entered.cleared g e htemp he
    rw [hfile] at hcleared
    cases hcleared
  · rintro ⟨e, he⟩
    exact ⟨he.shared, e, he.found, he.file⟩

theorem Copies.source (h : Copies smooth users w w₁ w₂) (hg : Source w₂ g e) : Source w₁ g e := by
  obtain ⟨finished, -, hprogress, -⟩ := h.copied
  rcases hprogress.shared g hg.shared with hsame | ⟨hgone, -⟩
  · exact ⟨hg.shared, hg.lasting, hsame ▸ hg.found, hg.file⟩
  · cases hgone.symm.trans hg.found

theorem Upgraded.away (h : Upgraded fontNames users w w') (hl : ∀ u ∈ users, l ≠ configLoc u) :
    w'.tree.lookup l = w.tree.lookup l :=
  h.frame.tree l fun ⟨u, hu, he⟩ => hl u hu he

theorem Upgraded.source_iff (h : Upgraded fontNames users w w') : Source w' g e ↔ Source w g e := by
  have same : publicDir <+: g → w'.tree.lookup g = w.tree.lookup g := fun hshared =>
    h.away fun u _ he => not_shared_of_below (configLoc_below u) (he ▸ hshared)
  constructor
  · exact fun hs => ⟨hs.shared, hs.lasting, same hs.shared ▸ hs.found, hs.file⟩
  · exact fun hs => ⟨hs.shared, hs.lasting, (same hs.shared).trans hs.found, hs.file⟩

-- A copy leaves every place with the entry that is meant for it, arrived or still to come.
theorem Copies.destined_iff (h : Copies smooth users w w₁ w₂) (hd : Distinct w₁) (hu : u ∈ users)
    (hl : Inside u l) : Destined w₂ u l e ↔ Destined w₁ u l e := by
  obtain ⟨finished, hfinished, hp, -⟩ := h.copied
  have horigin := hp.origin u l hl.below fun v g _ => hl.not_tempLoc v g
  constructor
  · rintro (hfound | ⟨hvacant, g, hg, hgl⟩)
    · rcases horigin with hsame | ⟨g, hg, hgl, -, hcopy, hfree⟩
      · exact .inl (hsame ▸ hfound)
      · obtain ⟨e', hs⟩ := h.mem_files.mp hg
        obtain rfl : e' = e := Option.some.inj (hs.found.symm.trans (hcopy.symm.trans hfound))
        exact .inr ⟨(hfree trivial).1, g, hs, hgl⟩
    · rcases horigin with hsame | ⟨g', -, -, hsome, hcopy, -⟩
      · exact .inr ⟨hsame ▸ hvacant, g, h.source hg, hgl⟩
      · rw [← hcopy, hvacant] at hsome
        cases hsome
  · rintro (hfound | ⟨hvacant, g, hg, rfl⟩)
    · rcases horigin with hsame | ⟨g, -, -, -, -, hfree⟩
      · exact .inl (hsame.trans hfound)
      · cases (hfree trivial).1.symm.trans hfound
    · rcases horigin with hsame | ⟨g', hg', hgl, -, hcopy, -⟩
      · refine .inr ⟨hsame.trans hvacant, g, ⟨hg.shared, hg.lasting, ?_, hg.file⟩, rfl⟩
        rcases hp.shared g hg.shared with hkept | ⟨-, f, hf, hfg⟩
        · exact hkept.trans hg.found
        · obtain rfl := h.orderly.leaves (hfinished.subset hf) (h.mem_files.mpr ⟨e, hg⟩) hfg
          have hsettled := hp.settled g hf u hu
          rw [hsame, hvacant] at hsettled
          cases hsettled
      · obtain ⟨e', hs⟩ := h.mem_files.mp hg'
        obtain rfl := hd.unique hs hg hgl
        exact .inl (hcopy.trans hg.found)

theorem Copies.complete_iff (h : Copies smooth users w w₁ w₂) (hs : smooth) (hd : Distinct w₁)
    (hu : u ∈ users) (hl : Inside u l) : w₂.tree.lookup l = some e ↔ Destined w₁ u l e := by
  obtain ⟨finished, -, hp, hall⟩ := h.copied
  obtain rfl := hall hs
  rw [← h.destined_iff hd hu hl]
  constructor
  · exact .inl
  · rintro (hfound | ⟨hvacant, g, hg, rfl⟩)
    · exact hfound
    · have hsettled := hp.settled g (h.mem_files.mpr ⟨e, h.source hg⟩) u hu
      rw [hvacant] at hsettled
      cases hsettled

end phases

section names

def namesAt (fontNames : Entry → List Str) (w : World) (l : Loc) : List Str :=
  ((w.tree.lookup l).map (ofFile fontNames)).getD []

-- The two places that a record can name outside of what the copies fill.
def Still (fontNames : Entry → List Str) (u : Int) (w w' : World) : Prop :=
  ∀ l, Beside u l → ¬ Inside u l → namesAt fontNames w' l = namesAt fontNames w l

theorem Still.trans {w'' : World} (h : Still fontNames u w w') (h' : Still fontNames u w' w'') :
    Still fontNames u w w'' := fun l hl hin => (h' l hl hin).trans (h l hl hin)

theorem beside_cases (h : Beside u l) (hin : ¬ Inside u l) :
    l = userTemp u ∨ l = (userDir u).dropLast := by
  cases h with
  | name hb =>
    left
    by_contra hne
    refine hin ⟨List.prefix_append _ _, fun ht => hne ?_⟩
    exact (ht.eq_of_length (by simp [userTemp])).symm
  | dir =>
    refine absurd ⟨List.prefix_rfl, fun ht => ?_⟩ hin
    have hle := ht.length_le
    simp only [userTemp, List.length_append, List.length_singleton] at hle
    omega
  | parent => exact .inr rfl

theorem Entered.still (h : Entered users w w') : Still fontNames u w w' := by
  intro l hl _
  rcases h.outside l fun ht => hl.not_shared (shared_of_temp ht) with hsame | ⟨-, hnone, hdir⟩
  · rw [namesAt, namesAt, hsame]
  · rw [namesAt, namesAt, hnone, hdir]
    rfl

theorem Copies.still (h : Copies smooth users w w₁ w₂) (hu : u ∈ users) :
    Still fontNames u w₁ w₂ := by
  intro l hl hin
  rcases h.temps with rfl | htemps
  · rfl
  obtain ⟨finished, -, hp, -⟩ := h.copied
  have hsame : w₂.tree.lookup l = w₁.tree.lookup l := by
    rcases beside_cases hl hin with rfl | rfl
    · rcases hp.origin u _ (List.prefix_append _ _) fun v g _ => hl.not_temp v g with
        hsame | ⟨g, -, -, -, -, hfree⟩
      · exact hsame
      · have hthere := htemps u hu
        rw [userTemp, (hfree trivial).1] at hthere
        cases hthere
    · refine hp.elsewhere _ hl.not_shared fun v _ hp => ?_
      have hle := hp.length_le
      simp [userDir_length] at hle
  rw [namesAt, namesAt, hsame]

theorem inside_configLoc (u : Int) : Inside u (configLoc u) := by
  refine ⟨List.prefix_append _ _, fun ht => ?_⟩
  have htemp : tempDir = fontConfigFile := by
    simpa [userTemp, configLoc] using ht.eq_of_length (by simp [userTemp, configLoc])
  exact absurd htemp (by decide)

theorem Upgraded.still (h : Upgraded (ofFile fontNames) users w w') : Still fontNames u w w' := by
  intro l hl hin
  have hsame : w'.tree.lookup l = w.tree.lookup l := by
    refine h.away fun v _ he => ?_
    rcases beside_cases hl hin with rfl | rfl
    · exact (inside_configLoc v).ne_userTemp u he.symm
    · have hle := congrArg List.length he
      simp [userDir_length, configLoc] at hle
  rw [namesAt, namesAt, hsame]

theorem Phases.still {w'' : World} (h : Phases fontNames ready smooth users w w₁ w₂ w'')
    (hu : u ∈ users) : Still fontNames u w w'' :=
  (h.entered.still.trans (h.toCopies.still hu)).trans h.upgraded.still

end names

section configs

-- The config's fonts are there when its names are read: none of them is still to be copied.
def Present (u : Int) (w : World) : Prop :=
  ∀ j, w.config u = some j → stringItem j fontVersion ≠ some fontConfigVersion7 →
    known j = true ∧ ∀ item ∈ listed (some j), ∀ p, stringItem item fontPath = some p →
      ∀ g e, Source w g e → fileName g = getFileName p → (w.tree.lookup (dest u g)).isSome = true

theorem present_before (u : Int) (w w' : World)
    (h : Frame (fun l => ∃ v, v ≠ u ∧ l = configLoc v) w w') (h' : Present u w') : Present u w := by
  have shared : ∀ g, publicDir <+: g → w'.tree.lookup g = w.tree.lookup g := fun g hg =>
    h.tree g fun ⟨v, _, he⟩ => not_shared_of_below (configLoc_below v) (he ▸ hg)
  have own : ∀ l, userDir u <+: l → w'.tree.lookup l = w.tree.lookup l := by
    intro l hl
    refine h.tree l fun ⟨v, hv, he⟩ => hv ?_
    exact (userDir_unique (configLoc_below v) (he ▸ hl))
  have hconfig : w'.config u = w.config u := by
    rw [World.config_eq_match, World.config_eq_match, own _ (configLoc_below u)]
  intro j hj hold
  obtain ⟨hknown, harrived⟩ := h' j (hconfig.trans hj) hold
  refine ⟨hknown, fun item hitem p hp g e hg hname => ?_⟩
  have hthere := harrived item hitem p hp g e
    ⟨hg.shared, hg.lasting, (shared g hg.shared).trans hg.found, hg.file⟩ hname
  rwa [own (dest u g) (List.prefix_append _ _)] at hthere

theorem version_upgraded {names : Str → List Str} {path : Str} {j : Json} (h : known j = true) :
    stringItem (upgraded names path j) fontVersion = some fontConfigVersion7 := by
  by_cases hlatest : stringItem j fontVersion = some fontConfigVersion7
  · rw [upgraded_of_version hlatest, hlatest]
  · unfold upgraded
    split
    · rename_i hkeep
      simp only [checkAndUpdateFontRecord, if_neg hlatest] at hkeep
      split at hkeep <;> cases hkeep
    · rename_i hwrite
      exact Versions.version_written h hwrite

-- Once a config has version "7.0", a second upgrade keeps the names that the first one read.
theorem upgraded_again {names names' names'' : Str → List Str} {path : Str} {j : Json}
    (h : stringItem j fontVersion ≠ some fontConfigVersion7 → known j = true ∧
      ∀ item ∈ listed (some j), ∀ p, stringItem item fontPath = some p →
        names (sandBoxPathToRealPath path p) = names'' (sandBoxPathToRealPath path p)) :
    upgraded names' path (upgraded names path j) = upgraded names'' path j := by
  by_cases hlatest : stringItem j fontVersion = some fontConfigVersion7
  · rw [upgraded_of_version hlatest, upgraded_of_version hlatest, upgraded_of_version hlatest]
  · obtain ⟨hknown, hnames⟩ := h hlatest
    rw [upgraded_of_version (version_upgraded hknown)]
    exact upgraded_congr hnames

theorem fileName_of_realPath {p : Str}
    (h : dest u g = locate (sandBoxPathToRealPath (configPath u) p)) : fileName g = getFileName p := by
  have hlen := congrArg List.length h
  have hslash : '/' ∉ getFileName p := Text.not_mem_afterLast '/' p
  rw [sandBoxPathToRealPath_configPath, locate_inside (userDir_plain u) hslash] at h hlen
  generalize getFileName p = b at h hlen
  by_cases hhere : b = [] ∨ b = ['.']
  · simp [resolve, hhere, dest] at hlen
  · by_cases habove : b = ['.', '.']
    · simp [resolve, habove, dest, userDir_length] at hlen
    · simpa [resolve, hhere, habove, dest] using h

end configs

section resumption

variable {a₁ a₂ a₃ b₁ b₂ b₃ c₁ c₂ c₃ : World}

-- From w a run that may fail, to a₃, and a run after it, to b₃; from w one run alone, to c₃.
structure Resumption (fontNames : Entry → List Str) (users : List Int)
    (w a₁ a₂ a₃ b₁ b₂ b₃ c₁ c₂ c₃ : World) : Prop where
  distinct : Distinct w
  first : Phases fontNames Present False users w a₁ a₂ a₃
  second : Phases fontNames (fun _ _ => True) True users a₃ b₁ b₂ b₃
  alone : Phases fontNames (fun _ _ => True) True users w c₁ c₂ c₃

theorem Distinct.mono (h : Distinct w) (hsub : ∀ g e, Source w' g e → Source w g e) : Distinct w' :=
  fun f g e e' hf hg hname => h f g e e' (hsub f e hf) (hsub g e' hg) hname

theorem Distinct.entered (h : Distinct w) (he : Entered users w w') : Distinct w' :=
  h.mono fun _ _ => he.source_iff.mp

namespace Resumption

variable (h : Resumption fontNames users w a₁ a₂ a₃ b₁ b₂ b₃ c₁ c₂ c₃) (hu : u ∈ users)

include h

theorem distinct_again : Distinct a₃ :=
  h.distinct.mono fun _ _ hs =>
    h.first.entered.source_iff.mp (h.first.toCopies.source (h.first.upgraded.source_iff.mp hs))

include hu

theorem half_iff (hl : Inside u l) : Destined a₂ u l e ↔ Destined w u l e :=
  (h.first.toCopies.destined_iff (h.distinct.entered h.first.entered) hu hl).trans
    (h.first.entered.destined_iff hl)

theorem alone_iff (hl : Inside u l) : c₂.tree.lookup l = some e ↔ Destined w u l e :=
  (h.alone.toCopies.complete_iff trivial (h.distinct.entered h.alone.entered) hu hl).trans
    (h.alone.entered.destined_iff hl)

theorem second_iff (hl : Inside u l) : b₂.tree.lookup l = some e ↔ Destined a₃ u l e :=
  (h.second.toCopies.complete_iff trivial (h.distinct_again.entered h.second.entered) hu hl).trans
    (h.second.entered.destined_iff hl)

theorem copies_agree (hl : Inside u l) (hkept : a₃.tree.lookup l = a₂.tree.lookup l) :
    b₂.tree.lookup l = c₂.tree.lookup l := by
  refine Option.ext fun e => ?_
  rw [h.second_iff hu hl, h.alone_iff hu hl, ← h.half_iff hu hl]
  exact destined_congr hkept fun _ _ => h.first.upgraded.source_iff

theorem fonts_agree (hl : Inside u l) (hne : l ≠ configLoc u) :
    b₃.tree.lookup l = c₃.tree.lookup l := by
  have away : ∀ v ∈ users, l ≠ configLoc v := fun v _ => hl.ne_configLoc hne v
  rw [h.second.upgraded.away away, h.alone.upgraded.away away]
  exact h.copies_agree hu hl (h.first.upgraded.away away)

theorem still_agree (hl : Beside u l) (hin : ¬ Inside u l) :
    namesAt fontNames b₂ l = namesAt fontNames c₂ l ∧
      namesAt fontNames a₂ l = namesAt fontNames c₂ l := by
  have hfirst : Still fontNames u w a₂ := h.first.entered.still.trans (h.first.toCopies.still hu)
  have hsecond : Still fontNames u a₃ b₂ :=
    h.second.entered.still.trans (h.second.toCopies.still hu)
  have halone : Still fontNames u w c₂ := h.alone.entered.still.trans (h.alone.toCopies.still hu)
  have hhalf := (hfirst l hl hin).trans (halone l hl hin).symm
  exact ⟨(hsecond l hl hin).trans ((h.first.upgraded.still l hl hin).trans hhalf), hhalf⟩

theorem names_arrived {j : Json} (hj : a₂.config u = some j)
    (hold : stringItem j fontVersion ≠ some fontConfigVersion7) {item : Json}
    (hitem : item ∈ listed (some j)) {p : Str} (hp : stringItem item fontPath = some p) :
    namesIn (ofFile fontNames) a₂.tree.lookup (sandBoxPathToRealPath (configPath u) p) =
      namesIn (ofFile fontNames) c₂.tree.lookup (sandBoxPathToRealPath (configPath u) p) := by
  by_cases hin : Inside u (locate (sandBoxPathToRealPath (configPath u) p))
  · refine namesIn_congr (Option.ext fun e => ?_)
    rw [h.alone_iff hu hin, ← h.half_iff hu hin]
    constructor
    · exact .inl
    · rintro (hfound | ⟨hvacant, g, hg, hgl⟩)
      · exact hfound
      · have hthere := (h.first.ready u hu j hj hold).2 item hitem p hp g e hg (fileName_of_realPath hgl)
        rw [hgl, hvacant] at hthere
        cases hthere
  · exact (h.still_agree hu (beside_realPath u p) hin).2

theorem config_agrees : b₃.tree.lookup (configLoc u) = c₃.tree.lookup (configLoc u) := by
  have hin := inside_configLoc u
  rw [h.second.upgraded.config u hu, h.alone.upgraded.config u hu]
  cases ha : a₂.tree.lookup (configLoc u) with
  | none =>
    have hkept : a₃.tree.lookup (configLoc u) = a₂.tree.lookup (configLoc u) := by
      rw [h.first.upgraded.config u hu, ha]
      rfl
    rw [h.copies_agree hu hin hkept]
    refine congrArg (Option.map · _) (upgradeEntry_congr fun p => ?_)
    by_cases hp : Inside u (locate (sandBoxPathToRealPath (configPath u) p))
    · refine namesIn_congr (h.copies_agree hu hp ?_)
      by_cases hself : locate (sandBoxPathToRealPath (configPath u) p) = configLoc u
      · rw [hself, hkept]
      · exact h.first.upgraded.away fun v _ => hp.ne_configLoc hself v
    · exact (h.still_agree hu (beside_realPath u p) hp).1
  | some x =>
    have hc : c₂.tree.lookup (configLoc u) = some x :=
      (h.alone_iff hu hin).mpr ((h.half_iff hu hin).mp (.inl ha))
    have hupgraded := h.first.upgraded.config u hu
    rw [ha, Option.map_some] at hupgraded
    rw [(h.second_iff hu hin).mpr (.inl hupgraded), hc, Option.map_some, Option.map_some]
    refine congrArg some ?_
    cases x with
    | document j =>
      have hj : a₂.config u = some j := by rw [World.config_eq_match, ha]
      refine congrArg Entry.document (upgraded_again fun hold => ?_)
      refine ⟨(h.first.ready u hu j hj hold).1, fun item hitem p hp => ?_⟩
      exact h.names_arrived hu hj hold hitem hp
    | _ => rfl

theorem agrees (hl : Inside u l) : b₃.tree.lookup l = c₃.tree.lookup l := by
  by_cases hne : l = configLoc u
  · subst hne
    exact h.config_agrees hu
  · exact h.fonts_agree hu hl hne

end Resumption

end resumption

section runs

variable {s s' s₁ s₂ s₃ : Process C}

-- Each font file that a record of an old config names has been copied when its names are read.
def Arrived (u : Int) (w : World) : Prop :=
  ∀ j ∈ w.config u, stringItem j fontVersion ≠ some fontConfigVersion7 →
    known j = true ∧ ∀ item ∈ listed (some j), ∀ p ∈ stringItem item fontPath,
      ∀ g ∈ w.files publicDir, fileName g = getFileName p → (w.tree.lookup (dest u g)).isSome = true

instance (u : Int) (w : World) : Decidable (Arrived u w) := by
  unfold Arrived
  infer_instance

def timely (s : Process C) : ProcessOp C → Io → Bool
  | .font (.config u .checkAndUpdateFontRecord), _ => decide (Arrived u s.world)
  | .font (.file (.removeAll path)), io =>
    decide (path = installPathApp ++ tempFile → s.world.files sharedTemp = [] ∨ io.ok = true)
  | _, _ => true

def Smooth (fontNames : Entry → List Str) (s : Process C) (o : ProcessOp C) (io : Io) : Prop :=
  Faulty fontNames s o io ∧ succeeds s o io = true

theorem Arrived.present (h : Arrived u w) : Present u w := by
  intro j hj hold
  obtain ⟨hknown, harrived⟩ := h j hj hold
  refine ⟨hknown, fun item hitem p hp g e hg hname => ?_⟩
  exact harrived item hitem p hp g (mem_files_of_lookup hg.shared hg.found hg.file) hname

theorem timely_grants : Grants (C := C) fontNames Present False
    (fun s o io => Faulty fontNames s o io ∧ timely s o io = true) where
  faulty h := h.1
  clears h := of_decide_eq_true h.2 rfl
  ready h := Arrived.present (of_decide_eq_true h.2)
  succeeds h := h.elim

theorem smooth_grants : Grants (C := C) fontNames (fun _ _ => True) True (Smooth fontNames) where
  faulty h := h.1
  clears h := .inr h.2
  ready _ := trivial
  succeeds _ _ _ _ h := h.2

theorem Migratable.distinct_sources (h : Migratable users w) : Distinct w := by
  intro f g e e' hf hg hname
  exact h.distinct f (mem_files_of_lookup hf.shared hf.found hf.file) g
    (mem_files_of_lookup hg.shared hg.found hg.file) hf.lasting hg.lasting hname

theorem Phases.source (h : Phases fontNames ready smooth users w w₁ w₂ w') (hg : Source w' g e) :
    Source w g e :=
  h.entered.source_iff.mp (h.toCopies.source (h.upgraded.source_iff.mp hg))

theorem Phases.shrinks (h : Phases fontNames ready smooth users w w₁ w₂ w') (hl : publicDir <+: l) :
    w'.tree.lookup l = w₁.tree.lookup l ∨ w'.tree.lookup l = none := by
  obtain ⟨finished, -, hp, -⟩ := h.copied
  rw [h.upgraded.away fun v _ he => not_shared_of_below (configLoc_below v) (he ▸ hl)]
  exact (hp.shared l hl).imp_right fun hgone => hgone.1

theorem Phases.fontDir (h : Phases fontNames ready smooth users w w₁ w₂ w')
    (hu : (w.tree.lookup (userDir u)).isSome = true) : (w'.tree.lookup (userDir u)).isSome = true := by
  obtain ⟨finished, -, hp, -⟩ := h.copied
  have hne : ∀ v ∈ users, userDir u ≠ configLoc v := by
    intro v _ he
    have hlen := congrArg List.length he
    simp [configLoc, userDir_length] at hlen
  have hin := h.entered.userDir hu
  rw [h.upgraded.away hne]
  rcases hp.origin u _ List.prefix_rfl fun v g _ => Beside.dir.not_temp v g with
    hsame | ⟨g, -, -, hsome, hcopy, -⟩
  · rwa [hsame]
  · rwa [hcopy]

theorem Phases.migratable (h : Phases fontNames ready smooth users w w₁ w₂ w')
    (hw : Migratable users w) (hu : FileTree.Unique w'.tree) (hc : w'.createdUserIds = users) :
    Migratable users w' where
  orderly := h.orderly.shrunk hu fun _ hl => h.shrinks hl
  nonempty := hw.nonempty
  nodup := hw.nodup
  created := hc
  fontDirs u hm := h.fontDir (hw.fontDirs u hm)
  rooted l hl := by
    obtain ⟨hbelow, e, he, hfile⟩ := (mem_files hu).mp hl
    rcases h.shrinks (shared_of_temp hbelow) with hsame | hgone
    · have hcleared := h.entered.cleared l e hbelow (hsame ▸ he)
      rw [hfile] at hcleared
      cases hcleared
    · cases hgone.symm.trans he
  distinct f hf g hg hlasting hlasting' hname := by
    obtain ⟨hshared, e, he, hfile⟩ := (mem_files hu).mp hf
    obtain ⟨hshared', e', he', hfile'⟩ := (mem_files hu).mp hg
    exact hw.distinct_sources f g e e' (h.source ⟨hshared, hlasting, he, hfile⟩)
      (h.source ⟨hshared', hlasting', he', hfile'⟩) hname

theorem settled_of_reaches {ok : Process C → ProcessOp C → Io → Prop} {α : Type}
    {p q : ProcessTask C α} (h : Program.Reaches (processSemantics C) ok p s q s')
    (hs : s.Settled users) : s'.Settled users := by
  have hkept : Program.Upholds (processSemantics C) ok (Process.Settled users) p (fun _ _ => True) s :=
    .of_stable (fun _ o io hs => hs.exec o io) p hs
  exact (hkept.reached h).here

theorem migration_resumes (callback callback' callback'' : C) (request request' request'' : Nat)
    (hw : Migratable users s.world) (hidle : s.migrating = false)
    (hfirst : Program.Reaches (processSemantics C)
      (fun s o io => Faulty fontNames s o io ∧ timely s o io = true)
      (dataMigration callback request) s (.done ()) s₁)
    (hsecond : Program.Reaches (processSemantics C) (Smooth fontNames)
      (dataMigration callback' request') s₁ (.done ()) s₂)
    (halone : Program.Reaches (processSemantics C) (Smooth fontNames)
      (dataMigration callback'' request'') s (.done ()) s₃) :
    ∀ u ∈ users, ∀ l, Inside u l → s₂.world.tree.lookup l = s₃.world.tree.lookup l := by
  intro u hu l hl
  have hsettled := settled_of_reaches hfirst ⟨hw.orderly.unique, hw.created⟩
  obtain ⟨-, hidle', a₁, a₂, ha⟩ := (dataMigration_steady timely_grants hw present_before hidle
    callback request).reached hfirst
  have hw' := ha.migratable hw hsettled.unique hsettled.users
  obtain ⟨-, -, b₁, b₂, hb⟩ := (dataMigration_steady smooth_grants hw' (fun _ _ _ _ h => h) hidle'
    callback' request').reached hsecond
  obtain ⟨-, -, c₁, c₂, hc⟩ := (dataMigration_steady smooth_grants hw (fun _ _ _ _ h => h) hidle
    callback'' request'').reached halone
  exact Resumption.agrees ⟨hw.distinct_sources, ha, hb, hc⟩ hu hl

end runs

section tooEarly

-- What the environment answers when only the file operations can fail.
def answer (fontNames : Entry → List Str) (s : Process C) : ProcessOp C → Io → Io
  | .font (.file (.exists _)), io =>
    { io with
      ok := true
      write := .complete
      fullNames := namesIn (ofFile fontNames) s.world.tree.lookup }
  | .font (.config _ _), io =>
    { io with
      ok := true
      write := .complete
      fullNames := namesIn (ofFile fontNames) s.world.tree.lookup }
  | _, io =>
    { io with
      write := .complete
      fullNames := namesIn (ofFile fontNames) s.world.tree.lookup }

theorem faulty_answer (fontNames : Entry → List Str) (s : Process C) (o : ProcessOp C) (io : Io) :
    Faulty fontNames s o (answer fontNames s o io) := by
  refine ⟨fun path ho => ?_, fun u op ho => ?_, ?_⟩
  · subst ho
    rfl
  · subst ho
    rfl
  · unfold answer
    split <;> exact ⟨rfl, rfl⟩

def starting (files : List (Loc × Entry)) : Process Unit :=
  (Server.onStart .other { World.provisioned [100] with tree := files ++ unconfigured }).process

def ranOn (s : Process Unit) (ios : List Io) : Process Unit :=
  ((dataMigration () 0).run (Program.adjusted (processSemantics Unit) (answer nameOf)) s ios).2

theorem reaches_smooth {s : Process Unit}
    (h : Program.Along (Program.adjusted (processSemantics Unit) (answer nameOf))
      (fun s o io => succeeds s o (answer nameOf s o io) = true) (dataMigration () 0) s []) :
    Program.Reaches (processSemantics Unit) (Smooth nameOf) (dataMigration () 0) s (.done ())
      (ranOn s []) :=
  Program.reaches_adjusted (h.mono fun s o io hio => ⟨faulty_answer nameOf s o io, hio⟩)

def configFirst : Process Unit := starting sharedFont.reverse

def failing (n : Nat) : List Io := List.replicate n default ++ [{ ok := false }]

theorem names_read_too_early :
    ¬ ∀ (fontNames : Entry → List Str) (s s₁ s₂ s₃ : Process Unit) (users : List Int)
      (request request' request'' : Nat), Migratable users s.world → s.migrating = false →
      (∃ j, sharedConfig s.world = some j ∧ known j = true) →
      Program.Reaches (processSemantics Unit) (Faulty fontNames) (dataMigration () request) s
        (.done ()) s₁ →
      Program.Reaches (processSemantics Unit) (Smooth fontNames) (dataMigration () request') s₁
        (.done ()) s₂ →
      Program.Reaches (processSemantics Unit) (Smooth fontNames) (dataMigration () request'') s
        (.done ()) s₃ →
      ∀ u ∈ users, ∀ l, Inside u l → s₂.world.tree.lookup l = s₃.world.tree.lookup l := by
  intro h
  have hfirst : Program.Reaches (processSemantics Unit) (Faulty nameOf) (dataMigration () 0) configFirst
      (.done ()) (ranOn configFirst (failing 24)) :=
    Program.reaches_adjusted (.of_forall (fun io _ s o => faulty_answer nameOf s o io) _ _)
  have hsame := h nameOf configFirst (ranOn configFirst (failing 24)) _ _ [100] 0 0 0
    ⟨⟨by decide, by decide, by decide⟩, by simp, by simp, rfl, by decide, by decide, by decide⟩
    rfl ⟨versionOne, rfl, by decide⟩ hfirst (reaches_smooth (by decide)) (reaches_smooth (by decide))
    100 (by simp) _ (inside_configLoc 100)
  have hnames := congrArg (fun j => (listed j).map fullNamesOf) (World.config_congr hsame)
  exact absurd hnames (by decide)

def fontFirst : Process Unit := starting sharedFont

theorem failed_removal_resumed :
    (ranOn (ranOn fontFirst (failing 28)) []).world.tree.lookup (configLoc 100) =
      (ranOn fontFirst []).world.tree.lookup (configLoc 100) := by
  have hfirst : Program.Reaches (processSemantics Unit)
      (fun s o io => Faulty nameOf s o io ∧ timely s o io = true) (dataMigration () 0) fontFirst
      (.done ()) (ranOn fontFirst (failing 28)) := by
    have halong : Program.Along (Program.adjusted (processSemantics Unit) (answer nameOf))
        (fun s o io => timely s o (answer nameOf s o io) = true) (dataMigration () 0) fontFirst
        (failing 28) := by decide
    exact Program.reaches_adjusted (halong.mono fun s o io hio => ⟨faulty_answer nameOf s o io, hio⟩)
  have hw : Migratable [100] fontFirst.world :=
    ⟨⟨by decide, by decide, by decide⟩, by simp, by simp, rfl, by decide, by decide, by decide⟩
  exact migration_resumes () () () 0 0 0 hw rfl hfirst (reaches_smooth (by decide))
    (reaches_smooth (by decide)) 100 (by simp) _ (inside_configLoc 100)

end tooEarly

end Migration
