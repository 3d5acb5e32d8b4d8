import FontManager.Interaction.Machine
import FontManager.Store.Mutation

open FontDefine FontManagerUtils FontConfig CJson Interaction

namespace TwoWriters

inductive Instance where
  | manager
  | migration
deriving DecidableEq

structure Pending where
  op : ConfigOp
  names : Str → List Str
  read : Option Json
  document : Json
  done : op.Reply
  failed : op.Reply

-- What a caller was told, with the names that its update read from the font files, if it wrote any.
structure Report where
  op : ConfigOp
  names : Option (Str → List Str)
  ok : Bool

structure Writers where
  file : Option Json
  pending : Instance → Option Pending
  reported : List Report

inductive Step where
  | read (i : Instance) (op : ConfigOp) (readable : Bool) (fullNamesByPath : Str → List Str)
  | write (i : Instance) (opens : Bool)

def allowed : Instance → ConfigOp → Bool
  | .manager, _ => true
  | .migration, .checkAndUpdateFontRecord => true
  | .migration, _ => false

def report (r : Report) (s : Writers) : Writers := { s with reported := s.reported ++ [r] }

def setPending (i : Instance) (p : Option Pending) (s : Writers) : Writers :=
  { s with pending := Function.update s.pending i p }

def Pending.answer (p : Pending) (reply : p.op.Reply) : Report :=
  ⟨p.op, if arrayList p.read then some p.names else none, p.op.succeeded reply⟩

def next (configPath : Str) (s : Writers) : Step → Option Writers
  | .read i op readable names =>
    if (s.pending i).isSome || !allowed i op then none
    else
      let read := if readable then s.file else none
      match op.edit names configPath read with
      | .keep reply => some (report ⟨op, none, op.succeeded reply⟩ s)
      | .write json done failed => some (setPending i (some ⟨op, names, read, json, done, failed⟩) s)
  | .write i opens =>
    match s.pending i with
    | none => none
    | some p =>
      if opens then some (report (p.answer p.done) { setPending i none s with file := some p.document })
      else some (report (p.answer p.failed) (setPending i none s))

def writers (configPath : Str) : Machine Writers Step := ⟨next configPath⟩

def start (file : Option Json) : Writers := ⟨file, fun _ => none, []⟩

def Report.refresh (configPath : Str) (r : Report) : Json → Json :=
  match r.names with
  | none => id
  | some names => refreshItem names configPath

def settle (configPath : Str) (items : List Json) (r : Report) : List Json :=
  if r.ok then r.op.applied (r.refresh configPath) items else items

-- The records as the callers were told of them: what the reported successes make of the first ones.
def expectedItems (configPath : Str) (file : Option Json) (reported : List Report) : List Json :=
  reported.foldl (settle configPath) (fontItems file)

def freshWrite (s : Writers) (i : Instance) : Bool :=
  match s.pending i with
  | none => true
  | some p => fontItems p.read = fontItems s.file

def fresh (s : Writers) : Step → Bool
  | .read _ op _ _ => !op.inserts || !scalarList s.file
  | .write i opens => !opens || freshWrite s i

structure Settled (configPath : Str) (file : Option Json) (s : Writers) : Prop where
  items : fontItems s.file = expectedItems configPath file s.reported
  pending : ∀ i p, s.pending i = some p →
    p.op.edit p.names configPath p.read = .write p.document p.done p.failed ∧
      (p.op.inserts = true → scalarList p.read = false)

section step

variable {configPath : Str} {file : Option Json} {s t : Writers}

theorem setPending_self (i : Instance) (p : Option Pending) (s : Writers) :
    (setPending i p s).pending i = p := by simp [setPending]

end step

section race

def versionOne : Json := .object [(fontList, .array []), (fontVersion, .number 1)]

def idle (s : Writers) : Bool := (s.pending .manager).isNone && (s.pending .migration).isNone

end race

theorem atomic_update {w : World} {u : Int} {s : Writers} {i : Instance} {op : ConfigOp} {io : Io}
    (hfile : s.file = w.config u) (hidle : s.pending i = none) (hi : allowed i op = true)
    (hio : io.write = .complete) :
    ∃ es t r, (writers (configPath u)).Run (fun _ _ => True) s es t ∧
      t.file = (w.execConfig u op io).2.config u ∧ t.reported = s.reported ++ [r] ∧ r.op = op ∧
      r.ok = op.succeeded (w.execConfig u op io).1 := by
  have hcheck : (if io.ok then s.file else none) = w.checkConfigFile u io.ok := by
    rw [hfile, World.checkConfigFile]
  have hread : (writers (configPath u)).next s (.read i op io.ok io.fullNames) =
      match op.edit io.fullNames (configPath u) (w.checkConfigFile u io.ok) with
      | .keep reply => some (report ⟨op, none, op.succeeded reply⟩ s)
      | .write json done failed => some (setPending i
          (some ⟨op, io.fullNames, w.checkConfigFile u io.ok, json, done, failed⟩) s) := by
    simp only [writers, next, hidle, hi, hcheck]
    rfl
  rw [World.execConfig, hio]
  cases hedit : op.edit io.fullNames (configPath u) (w.checkConfigFile u io.ok) with
  | keep reply =>
    rw [hedit] at hread
    exact ⟨_, _, _, .single trivial hread, hfile, rfl, rfl, rfl⟩
  | write json done failed =>
    rw [hedit] at hread
    let p : Pending := ⟨op, io.fullNames, w.checkConfigFile u io.ok, json, done, failed⟩
    have hwrite : (writers (configPath u)).next (setPending i (some p) s) (.write i true) =
        some (report (p.answer done)
          { setPending i none (setPending i (some p) s) with file := some json }) := by
      simp only [writers, next, setPending_self, if_true]
      rfl
    refine ⟨_, _, _, .snoc (.single trivial hread) trivial hwrite, ?_, rfl, rfl, ?_⟩
    · simp [World.applyEdit, World.writeFile, World.config_configPath, report]
    · simp [World.applyEdit, World.writeFile, Pending.answer, p]

end TwoWriters
