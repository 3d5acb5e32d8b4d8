import FontManager.Sequential.MigrationCopy
import FontManager.Source.Lifecycle

open FontDefine FontManagerUtils FontLocation Interaction DataMigrationManager

namespace Migration

variable {C : Type} {users : List Int} {w w' : World} {files finished : List Loc}

def Preserved (users : List Int) (w w' : World) : Prop :=
  ∀ f ∈ w.files publicDir, f ≠ publicDir ++ [fontConfigFile] → w'.tree.lookup f = none →
    ∀ u ∈ users, ∃ l, userDir u <+: l ∧ w'.tree.lookup l = w.tree.lookup f

-- A place in the user's directory that no listed file with other bytes is copied to, and that
-- holds the bytes of f from the start or is filled before f is removed.
structure Reserved (w : World) (files : List Loc) (u : Int) (f l : Loc) : Prop where
  inside : userDir u <+: l
  lasting : ∀ v, ∀ g ∈ files, ¬ tempLoc v g <+: l
  agreed : ∀ g ∈ files, dest u g = l → w.tree.lookup g = w.tree.lookup f
  filled : w.tree.lookup l = w.tree.lookup f ∨ w.tree.lookup l = none ∧
    ∀ finished, finished <+: files → f ∈ finished → ∃ g ∈ finished, dest u g = l

theorem reserved_dest {u : Int} {f : Loc} (hvacant : w.tree.lookup (dest u f) = none)
    (hname : ∀ g ∈ files, fileName g = fileName f → g = f) : Reserved w files u f (dest u f) where
  inside := List.prefix_append _ _
  lasting _ _ _ := tempLoc_not_dest
  agreed g hg hgf := by rw [hname g hg (by simpa [dest] using hgf)]
  filled := .inr ⟨hvacant, fun _ _ hf => ⟨f, hf, rfl⟩⟩

theorem Progress.reserved {trusted : Loc → Prop} (h : Progress trusted users w files finished w')
    (hfinished : finished <+: files) {u : Int} (hu : u ∈ users) {f l : Loc} (hf : f ∈ finished)
    (hl : Reserved w files u f l) : w'.tree.lookup l = w.tree.lookup f := by
  have copied : ∀ g ∈ files, dest u g = l → w'.tree.lookup l = w.tree.lookup g →
      w'.tree.lookup l = w.tree.lookup f := fun g hg hgl hnew => hnew.trans (hl.agreed g hg hgl)
  rcases h.origin u l hl.inside hl.lasting with hsame | ⟨g, hg, hgl, -, hnew, -⟩
  · rcases hl.filled with hthere | ⟨hvacant, hplaced⟩
    · rw [hsame, hthere]
    · obtain ⟨g, hg, rfl⟩ := hplaced finished hfinished hf
      have hsettled := h.settled g hg u hu
      rw [hsame, hvacant] at hsettled
      cases hsettled
  · exact copied g hg hgl hnew

theorem font_files_preserved (s s' : Process C) (request : Nat)
    (q : ProcessTask C DataMigrationResultCode) (hw : Orderly s.world)
    (hroom : ∀ f ∈ s.world.files publicDir, f ≠ publicDir ++ [fontConfigFile] → ∀ u ∈ users,
      ∃ l, Reserved s.world (s.world.files publicDir) u f l)
    (hrun : Program.Reaches (processSemantics C) (fun _ _ _ => True)
      (startDataMigration request users) s q s') : Preserved users s.world s'.world := by
  intro f hf hfont hgone u hu
  have hsteady := @startDataMigration_steady C (fun _ _ _ => True) (fun _ => False) s hw
    (fun _ _ _ h => h.elim) request users
  obtain ⟨finished, hfinished, hp⟩ := (hsteady.reached hrun).here
  have hremoved : f ∈ finished := by
    obtain ⟨hshared, e, he, -⟩ := (mem_files hw.unique).mp hf
    rcases hp.shared f hshared with hsame | ⟨-, g, hg, hgf⟩
    · rw [hgone, he] at hsame
      cases hsame
    · rwa [hw.leaves (hfinished.subset hg) hf hgf]
  obtain ⟨l, hl⟩ := hroom f hf hfont u hu
  exact ⟨l, hl.inside, hp.reserved hfinished hu hremoved hl⟩

section basenames

def sharedFile (path : String) (byte : UInt8) : Loc × Entry :=
  (locate (installPathApp ++ path.toList), .bytes [byte])

def process (files : List (Loc × Entry)) : Process Unit :=
  (Server.onStart .other { World.provisioned [100] with
    tree := files ++ (World.provisioned [100]).tree }).process

def migrated (files : List (Loc × Entry)) : DataMigrationResultCode × Process Unit :=
  (startDataMigration 0 [100]).run (processSemantics Unit) (process files) []

def namesakes : List (Loc × Entry) := [sharedFile "one/a.ttf" 1, sharedFile "two/a.ttf" 2]

def holds (byte : UInt8) (x : Loc × Entry) : Bool :=
  match x.2 with
  | .bytes content => content == [byte]
  | _ => false

theorem holds_of_lookup {t : FileTree Str Entry} {l : Loc} {byte : UInt8}
    (h : t.lookup l = some (.bytes [byte])) : t.any (holds byte) = true := by
  obtain ⟨x, hx, he⟩ := Option.map_eq_some_iff.mp h
  exact List.any_eq_true.mpr ⟨x, List.mem_of_find?_eq_some hx, by simp [holds, he]⟩

theorem font_file_lost :
    ¬ ∀ (s s' : Process Unit) (request : Nat) (users : List Int)
      (q : ProcessTask Unit DataMigrationResultCode), Orderly s.world →
      Program.Reaches (processSemantics Unit) (fun _ _ _ => True)
        (startDataMigration request users) s q s' → Preserved users s.world s'.world := by
  intro h
  have hrun : Program.Reaches (processSemantics Unit) (fun _ _ _ => True) (startDataMigration 0 [100])
      (process namesakes) (.done (migrated namesakes).1) (migrated namesakes).2 :=
    Program.reaches_run (fun _ _ => trivial) [] (by simp) _ _
  have hlost := h _ _ 0 [100] _ ⟨by decide, by decide, by decide⟩ hrun
  have hgone : (migrated namesakes).2.world.tree.lookup (sharedFile "two/a.ttf" 2).1 = none := by
    have hnone : ∀ x ∈ (migrated namesakes).2.world.tree,
      ¬ (sharedFile "two/a.ttf" 2).1 <+: x.1 := by decide
    exact FileTree.lookup_below hnone List.prefix_rfl
  obtain ⟨l, -, hl⟩ := hlost (sharedFile "two/a.ttf" 2).1 (by decide) (by decide) hgone 100 (by simp)
  have hany : (migrated namesakes).2.world.tree.any (holds 2) = true := holds_of_lookup (hl.trans rfl)
  exact absurd hany (by decide)

def namesApart : List (Loc × Entry) := [sharedFile "one/a.ttf" 1, sharedFile "two/b.ttf" 2]

theorem fonts_in_two_directories_preserved :
    (migrated namesApart).1 = .ok ∧
      Preserved [100] (process namesApart).world (migrated namesApart).2.world := by
  have hvacant : ∀ f ∈ (process namesApart).world.files publicDir, ∀ u ∈ [100],
      ((process namesApart).world.tree.lookup (dest u f)).isNone = true := by decide
  have hdistinct : ∀ f ∈ (process namesApart).world.files publicDir,
      ∀ g ∈ (process namesApart).world.files publicDir, fileName g = fileName f → g = f := by decide
  exact ⟨by decide, font_files_preserved (process namesApart) _ 0 _
    ⟨by decide, by decide, by decide⟩
    (fun f hf _ u hu => ⟨dest u f, reserved_dest (Option.isNone_iff_eq_none.mp (hvacant f hf u hu))
      fun g hg => hdistinct f hf g hg⟩) (Program.reaches_run (fun _ _ => trivial) [] (by simp) _ _)⟩

end basenames

end Migration
