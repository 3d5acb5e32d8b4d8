import FontManager.Source.ConfigFile
import FontManager.Store.Mutation

open FontDefine FontManagerUtils FontConfig CJson ConfigFile

namespace Atomicity

def printed {α : Type} (text : CJsonText) : Edit Json α → Option Bytes
  | .keep _ => none
  | .write json _ _ => text.print json

section atomic

variable (text : CJsonText) (fullNamesByPath : Str → List Str) (configPath : Str) (op : ConfigOp)
  (io : FileIo) (disk : Option Bytes)

def Atomic : Prop :=
  let result := perform text fullNamesByPath configPath op io disk
  if op.succeeded result.1 then
    result.2 = disk ∨
      ∃ bytes ∈ printed text (edit text fullNamesByPath configPath op io disk), result.2 = some bytes
  else result.2 = disk

def Durable : Prop :=
  ∀ fileData ∈ printed text (edit text fullNamesByPath configPath op io disk), io.opens = true →
    fileData.length ≤ min io.accepted io.flushed ∨
      disk = some (fileData.take (min io.accepted io.flushed))

end atomic

variable {text : CJsonText} {names : Str → List Str} {path : Str} {op : ConfigOp}
  {io : FileIo} {disk : Option Bytes}

theorem perform_of_keep {reply : op.Reply} (h : edit text names path op io disk = .keep reply) :
    (perform text names path op io disk).2 = disk := by
  rw [perform, h, finish]

theorem perform_of_write {json : Json} {done failed : op.Reply}
    (h : edit text names path op io disk = .write json done failed) :
    perform text names path op io disk =
      (if (writeToFile io disk (text.print json)).1 then done else failed,
        (writeToFile io disk (text.print json)).2) := by
  rw [perform, h, finish]

theorem atomic_iff_durable (text : CJsonText) (names : Str → List Str) (path : Str) (op : ConfigOp)
    (io : FileIo) (disk : Option Bytes) :
    Atomic text names path op io disk ↔ Durable text names path op io disk := by
  unfold Atomic Durable
  cases hedit : edit text names path op io disk with
  | keep reply => simp [printed, perform_of_keep hedit]
  | write json done failed =>
    obtain ⟨hdone, hfailed, -, -⟩ := Mutation.of_edit hedit
    rw [perform_of_write hedit, printed]
    cases text.print json with
    | none => simp [writeToFile, hfailed]
    | some fileData =>
      by_cases ho : io.opens = true
      · by_cases hshort : fileData.length ≤ io.accepted
        · simp [writeToFile, ho, hshort, hdone]
          rw [or_comm, eq_comm]
        · simp [writeToFile, ho, hshort, hfailed]
          exact eq_comm
      · simp [writeToFile, ho, hfailed]

section torn

def bytesOf (s : String) : Bytes := s.toList.map fun c => c.toNat.toUInt8

def emptyText : Bytes := bytesOf "\x7b\"fontlist\":[],\"version\":\"7.0\"\x7d"

def insertedText : Bytes :=
  bytesOf ("\x7b\n\t\"fontlist\":\t[\x7b\n\t\t\t\"fontfullpath\":\t\"/a.ttf\",\n\t\t\t\"fullname\":" ++
    "\t[\"A\"]\n\t\t\x7d],\n\t\"version\":\t\"7.0\"\n\x7d")

def sampleText : CJsonText where
  parse bytes := if bytes = emptyText then some emptyConfig else none
  print _ := some insertedText

theorem insert_torn :
    ¬ ∀ (text : CJsonText) (names : Str → List Str) (path : Str) (op : ConfigOp) (io : FileIo)
      (disk : Option Bytes), Atomic text names path op io disk := by
  intro h
  have hatomic := h sampleText (fun _ => []) (configPath 100)
    (.insertFontRecord "/a.ttf".toList ["A".toList]) ⟨true, true, 10, 10⟩ (some emptyText)
  have hresult : perform sampleText (fun _ => []) (configPath 100)
      (.insertFontRecord "/a.ttf".toList ["A".toList]) ⟨true, true, 10, 10⟩ (some emptyText) =
        (false, some (insertedText.take 10)) := by decide
  rw [Atomic, hresult] at hatomic
  exact absurd hatomic (by decide)

end torn

section refinement

def outcome (io : FileIo) (fileData : Bytes) : WriteOutcome :=
  if io.opens then
    if fileData.length ≤ min io.accepted io.flushed then .complete
    else if fileData.length ≤ io.accepted then .lost (fileData.take (min io.accepted io.flushed))
    else .short (fileData.take (min io.accepted io.flushed))
  else .openFails

structure Readable (text : CJsonText) (json : Json) (bytes : Bytes) : Prop where
  print : text.print json = some bytes
  parse : text.parse bytes = some json
  torn : ∀ n < bytes.length, text.parse (bytes.take n) = none

theorem writeFile_refines (io : FileIo) {u : Int} {w : World} {json : Json} {fileData : Bytes}
    (h : Readable text json fileData) (hdisk : w.config u = disk.bind text.parse) :
    (w.writeFile (configPath u) json (outcome io fileData)).1 =
        (writeToFile io disk (text.print json)).1 ∧
      (w.writeFile (configPath u) json (outcome io fileData)).2.config u =
        (writeToFile io disk (text.print json)).2.bind text.parse := by
  rw [h.print]
  unfold outcome writeToFile
  cases io.opens with
  | false => exact ⟨rfl, hdisk⟩
  | true =>
    simp only [if_true]
    by_cases hall : fileData.length ≤ min io.accepted io.flushed
    · rw [if_pos hall, List.take_of_length_le hall]
      simp [World.writeFile, World.config_configPath, h.parse, (le_min_iff.mp hall).1]
    · rw [if_neg hall]
      have htorn := h.torn _ (not_le.mp hall)
      by_cases hshort : fileData.length ≤ io.accepted
      · simp [hshort, World.writeFile, World.config_configPath, htorn]
      · simp [hshort, World.writeFile, World.config_configPath, htorn]

theorem execConfig_refines {u : Int} {w : World} {wio : Io} (hempty : text.parse [] = none)
    (hread : wio.ok = io.readable) (hdisk : w.config u = disk.bind text.parse)
    (hwrite : ∀ json done failed,
      op.edit wio.fullNames (configPath u) (w.checkConfigFile u wio.ok) = .write json done failed →
        ∃ fileData, Readable text json fileData ∧ wio.write = outcome io fileData) :
    (w.execConfig u op wio).1 = (perform text wio.fullNames (configPath u) op io disk).1 ∧
      (w.execConfig u op wio).2.config u =
        (perform text wio.fullNames (configPath u) op io disk).2.bind text.parse := by
  have hdocument : text.parse (checkConfigFile io disk) = w.checkConfigFile u wio.ok := by
    rw [checkConfigFile, World.checkConfigFile, hread, hdisk]
    cases io.readable with
    | false => exact hempty
    | true =>
      cases disk with
      | none => exact hempty
      | some bytes => rfl
  rw [perform, edit, hdocument, World.execConfig]
  cases hedit : op.edit wio.fullNames (configPath u) (w.checkConfigFile u wio.ok) with
  | keep reply => exact ⟨rfl, hdisk⟩
  | write json done failed =>
    obtain ⟨fileData, hreadable, hio⟩ := hwrite json done failed hedit
    obtain ⟨hreply, hconfig⟩ := writeFile_refines io hreadable hdisk
    rw [World.applyEdit, finish, hio, hreply]
    exact ⟨rfl, hconfig⟩

end refinement

end Atomicity
