import FontManager.Source.Utils

namespace CopyLoop

open FontManagerUtils

-- What one sendfile answers: -1 with EINTR, -1 with another errno, 0, or a count of bytes.
inductive SendFile where
  | interrupted
  | error
  | zero
  | sent (ret : Nat)
deriving DecidableEq

structure CopyState where
  offset : Nat
  bytesSent : Nat
  target : List UInt8
deriving DecidableEq

structure SendRequest where
  state : CopyState
  count : Nat
deriving DecidableEq

-- Nothing is returned while the loop stands before a request that has no answer yet.
structure CopyRun where
  requests : List SendRequest
  target : List UInt8
  returned : Option Bool
deriving DecidableEq

def CopyRun.after (request : SendRequest) (run : CopyRun) : CopyRun :=
  { run with requests := request :: run.requests }

variable (source : List UInt8) (fileSize : Nat)

-- The kernel writes from its offset and advances it; the loop counts what it was told.
def CopyState.advance (s : CopyState) (ret : Nat) : CopyState where
  offset := s.offset + ret
  bytesSent := s.bytesSent + ret
  target := s.target ++ (source.drop s.offset).take ret

def sendLoop (s : CopyState) : List SendFile → CopyRun
  | [] =>
    if s.bytesSent < fileSize then ⟨[], s.target, none⟩
    else ⟨[], s.target, some true⟩
  | ret :: rest =>
    if s.bytesSent < fileSize then
      CopyRun.after ⟨s, fileSize - s.bytesSent⟩
        (match ret with
        | .interrupted => sendLoop s rest
        | .error => ⟨[], s.target, some false⟩
        | .zero => ⟨[], s.target, some false⟩
        | .sent ret => sendLoop (s.advance source ret) rest)
    else ⟨[], s.target, some true⟩

def start : CopyState := ⟨0, 0, []⟩

-- The target is empty; sourceStat is the size that fstat gives.
def copyFileByFd (sourceFd targetFd : Int) (sourceStat : Option Int) (outcomes : List SendFile) :
    CopyRun :=
  if sourceFd < 0 ∨ targetFd < 0 then ⟨[], [], some false⟩
  else
    match sourceStat with
    | none => ⟨[], [], some false⟩
    | some size =>
      if size < 0 ∨ size.toNat > maxFontFileSize then ⟨[], [], some false⟩
      else sendLoop source size.toNat start outcomes

end CopyLoop
