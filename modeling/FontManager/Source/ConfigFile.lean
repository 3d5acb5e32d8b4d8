import FontManager.Source.World

open FontDefine CJson

abbrev Bytes := List UInt8

structure CJsonText where
  parse : Bytes → Option Json
  print : Json → Option Bytes

structure FileIo where
  readable : Bool
  opens : Bool
  accepted : Nat
  flushed : Nat

namespace ConfigFile

def checkConfigFile (io : FileIo) (disk : Option Bytes) : Bytes :=
  if io.readable then disk.getD [] else []

-- fopen truncates, fwrite reports what it accepted, and what fclose fails to flush goes unnoticed.
def writeToFile (io : FileIo) (disk : Option Bytes) : Option Bytes → Bool × Option Bytes
  | none => (false, disk)
  | some fileData =>
    if io.opens then
      (fileData.length ≤ io.accepted, some (fileData.take (min io.accepted io.flushed)))
    else (false, disk)

variable (text : CJsonText) (fullNamesByPath : Str → List Str) (configPath : Str)

def edit (op : ConfigOp) (io : FileIo) (disk : Option Bytes) : Edit Json op.Reply :=
  op.edit fullNamesByPath configPath (text.parse (checkConfigFile io disk))

def finish {α : Type} (io : FileIo) (disk : Option Bytes) : Edit Json α → α × Option Bytes
  | .keep reply => (reply, disk)
  | .write json done failed =>
    (if (writeToFile io disk (text.print json)).1 then done else failed,
      (writeToFile io disk (text.print json)).2)

def perform (op : ConfigOp) (io : FileIo) (disk : Option Bytes) : op.Reply × Option Bytes :=
  finish text io disk (edit text fullNamesByPath configPath op io disk)

end ConfigFile
