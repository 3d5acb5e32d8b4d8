import FontManager.Source.Define

namespace FontManagerUtils

open FontDefine Text

def getFileName (path : Str) : Str := afterLast '/' path

def getFileDirectory (path : Str) : Str := uptoLast '/' path

def makeAppIdentifier (scope tokenId : Int) : Str :=
  if scope = fontScopeApp then appFontDirPrefix ++ decimal tokenId
  else sessionFontDirPrefix ++ decimal tokenId

structure Tm where
  year : Nat
  mon : Nat
  mday : Nat
  hour : Nat
  min : Nat
  sec : Nat
deriving DecidableEq

def beginYear : Nat := 1900
def timeStringLength : Nat := 20

def pad (width n : Nat) : Str :=
  List.replicate (width - (Nat.toDigits 10 n).length) '0' ++ Nat.toDigits 10 n

def getFileTime (t : Tm) : Str :=
  let s := pad 4 (t.year + beginYear) ++ pad 2 (t.mon + 1) ++ pad 2 t.mday ++ ['-'] ++
    pad 2 t.hour ++ pad 2 t.min ++ pad 2 t.sec
  if s.length < timeStringLength then s else []

structure Fd where
  link : Option Str
  content : List UInt8
  fullNames : List Str
deriving DecidableEq

def maxFontFileSize : Nat := 1024 * 1024 * 1024

def getFullNamesByFd (fd : Fd) : List Str :=
  if fd.content.length > maxFontFileSize then [] else fd.fullNames

def getFilePathByFd (fd : Fd) : Str := cStr (fd.link.getD [])

def resolve : List Str → List Str → List Str
  | stack, [] => stack.reverse
  | stack, c :: cs =>
    if c = [] ∨ c = ['.'] then resolve stack cs
    else if c = ['.', '.'] then resolve stack.tail cs
    else resolve (c :: stack) cs

def joinPath (cs : List Str) : Str := cs.flatMap ('/' :: ·)

def locate (path : Str) : List Str := resolve [] (path.splitOn '/')

-- std::filesystem::weakly_canonical of an absolute path on a symlink-free file system.
def lexicallyNormal (path : Str) : Str :=
  match locate path with
  | [] => ['/']
  | cs => joinPath cs

def installPath (userId : Int) : Str := installPathPrefix ++ decimal userId ++ installPathSuffix

def getMaxInstallNum (maxInstallNum : Int) : Int :=
  if maxInstallNum < defaultMaxInstallNum then defaultMaxInstallNum else maxInstallNum

end FontManagerUtils
