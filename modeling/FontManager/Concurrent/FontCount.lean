import FontManager.Concurrent.Permits

open FontDefine FontManagerUtils FontConfig FontLocation CJson Interaction

def fontCount (u : Int) (w : World) : Nat := (listed (w.config u)).length

def Io.completes (io : Io) : Bool :=
  match io.write with
  | .complete => true
  | _ => false

theorem Io.complete_of_completes {io : Io} (h : io.completes = true) : io.write = .complete := by
  unfold Io.completes at h
  split at h
  · assumption
  · cases h

-- The file is read, and what is written reaches it.
def Io.stores (io : Io) : Bool := io.ok && io.completes

theorem Io.stores_iff {io : Io} : io.stores = true ↔ io.ok = true ∧ io.write = .complete := by
  rw [Io.stores, Bool.and_eq_true]
  exact and_congr_right fun _ => ⟨Io.complete_of_completes, fun h => by rw [Io.completes, h]⟩

namespace FontCount

theorem length_under_limit {names : Str → List Str} {path fontPath : Str} {fullNames : List Str}
    {maxCount : Int} {json : Option Json} {json' : Json} {done failed : FontErrorCode}
    (h : (ConfigOp.insertFontRecordIfUnderLimit fontPath fullNames maxCount).edit names path json =
      .write json' done failed) : ((listed json).length : Int) < maxCount := by
  cases json with
  | none => cases h
  | some j =>
    simp only [ConfigOp.edit, insertFontRecordIfUnderLimit] at h
    split at h
    · cases h
    · rename_i items hitems
      split at h
      · cases h
      · split at h
        · cases h
        · simpa [listed, hitems] using ‹¬ _ ≥ maxCount›

section world

variable {u : Int} {w : World}

def Sheds (u : Int) (w w' : World) : Prop :=
  listed (w'.config u) = listed (w.config u) ∨ listed (w'.config u) = []

theorem Sheds.refl (u : Int) (w : World) : Sheds u w w := Or.inl rfl

theorem Sheds.count_le {w w' : World} (h : Sheds u w w') : fontCount u w' ≤ fontCount u w := by
  unfold fontCount
  rcases h with h | h
  · rw [h]
  · rw [h]
    exact Nat.zero_le _

-- What a file operation leaves of a list: the same, none, or the empty one.
def Fresh (u : Int) (w w' : World) : Prop :=
  w'.config u = w.config u ∨ w'.config u = none ∨ w'.config u = some emptyConfig

theorem Fresh.refl (u : Int) (w : World) : Fresh u w w := Or.inl rfl

theorem Fresh.trans {w w' w'' : World} (h : Fresh u w w') (h' : Fresh u w' w'') : Fresh u w w'' := by
  rcases h' with h' | h'
  · unfold Fresh
    rwa [h']
  · exact Or.inr h'

theorem Fresh.sheds {w w' : World} (h : Fresh u w w') : Sheds u w w' := by
  rcases h with h | h | h
  · exact Or.inl (congrArg listed h)
  · exact Or.inr (congrArg listed h)
  · exact Or.inr (congrArg listed h)

theorem fresh_put {path : Str} {e : Entry} (he : ∀ json, e = .document json → json = emptyConfig) :
    Fresh u w (w.put path e) := by
  unfold Fresh
  rw [World.config_put]
  split
  · cases e with
    | document json => exact Or.inr (Or.inr (congrArg some (he json rfl)))
    | dir => exact Or.inr (Or.inl rfl)
    | bytes content => exact Or.inr (Or.inl rfl)
  · exact Or.inl rfl

theorem fresh_tree {t : FileTree Str Entry}
    (h : t.lookup (configLoc u) = w.tree.lookup (configLoc u) ∨ t.lookup (configLoc u) = none) :
    Fresh u w { w with tree := t } := by
  rcases h with h | h
  · exact Or.inl (World.config_congr h)
  · refine Or.inr (Or.inl ?_)
    rw [World.config_eq_match, h]

theorem fresh_prune (l : Loc) : Fresh u w { w with tree := w.tree.prune l } := by
  refine fresh_tree ?_
  rw [FileTree.lookup_prune]
  split
  · exact Or.inr rfl
  · exact Or.inl rfl

theorem fresh_createDirectory (path : Str) (io : Io) :
    Fresh u w (w.createDirectory path io).2 := by
  unfold World.createDirectory
  split
  · exact .refl u w
  · split
    · exact .refl u w
    · exact .refl u w
    · split
      · exact fresh_put (by simp)
      · exact .refl u w

theorem fresh_createConfig (path : Str) (io : Io) : Fresh u w (w.createConfig path io).2 := by
  unfold World.createConfig
  split
  · exact .refl u w
  · split
    · exact fresh_put fun json hjson => (Entry.document.inj hjson).symm
    · exact .refl u w
    · exact fresh_put (by simp)
    · exact fresh_put (by simp)

theorem fresh_copy (fd : Fd) (path : Str) (io : Io) : Fresh u w (w.copy fd path io).2 := by
  unfold World.copy
  split
  · exact .refl u w
  · split
    · exact fresh_put (by simp)
    · exact fresh_put (by simp)

theorem fresh_rename (src dest : Str) (ok : Bool) : Fresh u w (w.rename src dest ok).2 := by
  unfold World.rename
  split
  · split
    · exact (fresh_prune (locate src)).trans
        (fresh_put (w := { w with tree := w.tree.prune (locate src) }) (by simp))
    · exact .refl u w
  · exact .refl u w

theorem fresh_removeAll (path : Str) (io : Io) : Fresh u w (w.removeAll path io).2 := by
  unfold World.removeAll
  split
  · exact fresh_prune _
  · refine fresh_tree ?_
    rw [FileTree.lookup_keep]
    split
    · exact Or.inl rfl
    · exact Or.inr rfl

theorem fresh_execFile (u : Int) (w : World) (io : Io) (op : FileOp) :
    Fresh u w (w.execFile io op).2 := by
  cases op with
  | createDirectory path => exact fresh_createDirectory path io
  | createConfig path => exact fresh_createConfig path io
  | copy fd path => exact fresh_copy fd path io
  | rename src dest => exact fresh_rename src dest io.ok
  | removeAll path => exact fresh_removeAll path io
  | _ => exact .refl u w

theorem sheds_execFile (u : Int) (w : World) (io : Io) (op : FileOp) :
    Sheds u w (w.execFile io op).2 := (fresh_execFile u w io op).sheds

theorem sheds_applyEdit {α : Type} (io : Io) (e : Edit Json α) :
    Sheds u w (w.applyEdit (configPath u) io.write e).2 ∨
      io.completes = true ∧ ∃ json done failed, e = .write json done failed ∧
        (w.applyEdit (configPath u) io.write e).2.config u = some json := by
  cases e with
  | keep reply => exact Or.inl (.refl u w)
  | write json done failed =>
    simp only [World.applyEdit, Io.completes]
    cases io.write with
    | complete =>
      exact Or.inr ⟨rfl, json, done, failed, rfl, World.config_configPath (.document json)⟩
    | openFails => exact Or.inl (.refl u w)
    | short left => exact Or.inl (fresh_put (by simp)).sheds
    | lost left => exact Or.inl (fresh_put (by simp)).sheds

theorem sheds_execConfig (u v : Int) (w : World) (op : ConfigOp) (io : Io) :
    Sheds u w (w.execConfig v op io).2 ∨
      v = u ∧ io.stores = true ∧ ∃ json done failed,
        op.edit io.fullNames (configPath u) (w.config u) = .write json done failed ∧
        (w.execConfig v op io).2.config u = some json := by
  by_cases hu : v = u
  · subst hu
    cases hread : io.ok with
    | false =>
      rw [World.execConfig_unreadable hread]
      exact Or.inl (.refl v w)
    | true =>
      rw [World.execConfig_readable hread, Io.stores, hread, Bool.true_and]
      exact (sheds_applyEdit io _).imp_right fun h => ⟨rfl, h⟩
  · have hne : ¬ configLoc u = configLoc v := fun h => hu (configLoc_injective h).symm
    exact Or.inl (Or.inl (congrArg listed (World.config_frame (w.execConfig_frame v op io) hne)))

theorem sheds_exec (u : Int) (w : World) (o : Op) (io : Io) :
    Sheds u w (w.exec o io).2 ∨
      ∃ op, o = .config u op ∧ io.stores = true ∧ ∃ json done failed,
        op.edit io.fullNames (configPath u) (w.config u) = .write json done failed ∧
        (w.exec o io).2.config u = some json := by
  cases o with
  | config v op =>
    refine (sheds_execConfig u v w op io).imp_right fun h => ?_
    obtain ⟨rfl, hio, json, done, failed, hedit, hconfig⟩ := h
    exact ⟨op, rfl, hio, json, done, failed, hedit, hconfig⟩
  | file op => exact Or.inl (sheds_execFile u w io op)
  | registry op => cases op <;> exact Or.inl (.refl u w)
  | _ => exact Or.inl (.refl u w)

theorem count_exec (u : Int) (w : World) (o : Op) (io : Io) :
    fontCount u (w.exec o io).2 ≤ fontCount u w ∨
      ∃ op, o = .config u op ∧ io.stores = true ∧ ∃ json done failed,
        op.edit io.fullNames (configPath u) (w.config u) = .write json done failed ∧
        fontCount u (w.exec o io).2 = (listed (some json)).length := by
  refine (sheds_exec u w o io).imp Sheds.count_le fun h => ?_
  obtain ⟨op, ho, hio, json, done, failed, hedit, hconfig⟩ := h
  exact ⟨op, ho, hio, json, done, failed, hedit, congrArg (fun j => (listed j).length) hconfig⟩

theorem exec_maxInstallNum (w : World) (o : Op) (io : Io) :
    (w.exec o io).2.maxInstallNum = w.maxInstallNum := by
  cases o with
  | config v op => exact (w.execConfig_frame v op io).maxInstallNum
  | file op => exact (w.execFile_frame io op).maxInstallNum
  | registry op => cases op <;> rfl
  | _ => rfl

end world

end FontCount

def Sample.acts {L : Type} (i n : Nat) : List (Event L Io) := List.replicate n (.act i {})
