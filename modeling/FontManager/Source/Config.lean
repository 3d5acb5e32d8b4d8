import FontManager.Source.Json
import FontManager.Source.Utils

structure FontRecordInfo where
  fontPath : Str := []
  fullNames : List Str := []
  scope : Int := FontDefine.fontScopeNone
  srcPath : Str := []
  appIdentifier : Str := []
  bundleName : Str := []
deriving DecidableEq

inductive Edit (δ α : Type) where
  | keep (reply : α)
  | write (document : δ) (done failed : α)

namespace FontConfig

open FontDefine FontManagerUtils Text CJson

def fontList : Str := "fontlist".toList
def fontPath : Str := "fontfullpath".toList
def fontFullName : Str := "fullname".toList
def fontScope : Str := "scope".toList
def fontSrcPath : Str := "srcPath".toList
def fontAppIdentifier : Str := "appIdentifier".toList
def fontBundleName : Str := "bundleName".toList
def fontVersion : Str := "version".toList
def version : Int := 1

def createString (value : Str) : Json := .string (cStr value)

def safeAddStringToObject (name value : Str) (object : Json) : Json :=
  addItemToObject name (createString value) object

def safeAddNumberToObject (name : Str) (value : Int) (object : Json) : Json :=
  addItemToObject name (.number value) object

def constructCJSON (fontFullPath : Str) (fullName : List Str) : Json :=
  addItemToObject fontFullName (.array (fullName.map createString))
    (safeAddStringToObject fontPath fontFullPath (.object []))

def constructScopeCJSON (record : FontRecordInfo) : Json :=
  let item := constructCJSON record.fontPath record.fullNames
  let item := if record.scope ≥ 0 then safeAddNumberToObject fontScope record.scope item else item
  let item := if record.srcPath ≠ [] then safeAddStringToObject fontSrcPath record.srcPath item
    else item
  let item := if record.appIdentifier ≠ [] then
    safeAddStringToObject fontAppIdentifier record.appIdentifier item else item
  if record.bundleName ≠ [] then safeAddStringToObject fontBundleName record.bundleName item
  else item

def stringValue : Json → Option Str
  | .string s => some s
  | _ => none

def arrayItem (item : Json) (name : Str) : Option (List Json) :=
  (getObjectItem item name).bind arrayItems

def fullNamesOf (item : Json) : List Str :=
  ((arrayItem item fontFullName).getD []).filterMap stringValue

def parseScopeRecord (arrItem : Json) : FontRecordInfo where
  fontPath := (stringItem arrItem fontPath).getD []
  fullNames := fullNamesOf arrItem
  scope := ((numberItem arrItem fontScope).map valueint).getD fontScopeNone
  srcPath := (stringItem arrItem fontSrcPath).getD []
  appIdentifier := (stringItem arrItem fontAppIdentifier).getD []
  bundleName := (stringItem arrItem fontBundleName).getD []

section selectors

def atPath (path : Str) (item : Json) : Bool := stringItem item fontPath == some path

def named (fullName : Str) (item : Json) : Bool := (fullNamesOf item).contains fullName

def atUrl (srcPath : Str) (item : Json) : Bool := stringItem item fontSrcPath == some srcPath

def ofApp (appIdentifier : Str) (item : Json) : Bool :=
  stringItem item fontAppIdentifier == some appIdentifier

def scopeWith (p : Int → Bool) (item : Json) : Bool :=
  (numberItem item fontScope).any fun q => p (valueint q)

end selectors

def sandBoxPathToRealPath (configPath path : Str) : Str :=
  getFileDirectory configPath ++ getFileName path

def refreshItem (fullNamesByPath : Str → List Str) (configPath : Str) (item : Json) : Json :=
  match stringItem item fontPath with
  | none => item
  | some pathVal =>
    let freshNames := fullNamesByPath (sandBoxPathToRealPath configPath pathVal)
    addItemToObject fontFullName (.array (freshNames.map createString))
      (deleteItemFromObject fontFullName item)

def refreshFullNames (fullNamesByPath : Str → List Str) (configPath : Str) : Json → Json :=
  modifyObjectItem (fun fontList =>
    match fontList with
    | .array items => .array (items.map (refreshItem fullNamesByPath configPath))
    | other => other) fontList

def insertFontRecord (path : Str) (fullNames : List Str) : Option Json → Edit Json Bool
  | none => .keep false
  | some jsonValue =>
    match getObjectItem jsonValue fontList with
    | none => .keep false
    | some list =>
      if (children list).any (atPath path) then .keep true
      else .write (modifyObjectItem (addItemToArray (constructCJSON path fullNames)) fontList
        jsonValue) true false

def insertFontRecordIfUnderLimit (path : Str) (fullNames : List Str) (maxCount : Int) :
    Option Json → Edit Json FontErrorCode
  | none => .keep .installFail
  | some jsonValue =>
    match arrayItem jsonValue fontList with
    | none => .keep .installFail
    | some items =>
      if items.any (atPath path) then .keep .ok
      else if (items.length : Int) ≥ maxCount then .keep .maxFileCount
      else .write (modifyObjectItem (addItemToArray (constructCJSON path fullNames)) fontList
        jsonValue) .ok .installFail

def insertScopeFontRecord (record : FontRecordInfo) : Option Json → Edit Json Bool
  | none => .keep false
  | some jsonValue =>
    match getObjectItem jsonValue fontList with
    | none => .keep false
    | some _ =>
      .write (modifyObjectItem (addItemToArray (constructScopeCJSON record)) fontList jsonValue)
        true false

def deleteFirst (selected : Json → Bool) : Option Json → Edit Json Bool
  | none => .keep false
  | some jsonValue =>
    match (arrayItem jsonValue fontList).bind (·.findIdx? selected) with
    | none => .keep false
    | some i => .write (modifyObjectItem (deleteItemFromArray i) fontList jsonValue) true false

def deleteFontRecord (path : Str) : Option Json → Edit Json Bool := deleteFirst (atPath path)

def deleteScopeFontRecordByUrl (srcPath : Str) : Option Json → Edit Json Bool :=
  deleteFirst (atUrl srcPath)

def deleteEach (selected : Json → Bool) (items : List Json) : List Json × Bool :=
  (List.range items.length).foldr
    (fun i (items, changed) =>
      if items[i]?.any selected then (items.eraseIdx i, true) else (items, changed))
    (items, false)

def deleteScopeFontRecordByAppId (appIdentifier : Str) : Option Json → Edit Json Bool
  | none => .keep false
  | some jsonValue =>
    match arrayItem jsonValue fontList with
    | none => .keep false
    | some items =>
      match deleteEach (ofApp appIdentifier) items with
      | (rest, changed) =>
        if changed then .write (modifyObjectItem (fun _ => .array rest) fontList jsonValue) true false
        else .keep false

def checkAndUpdateFontRecord (fullNamesByPath : Str → List Str) (configPath : Str) :
    Option Json → Edit Json Bool
  | none => .keep false
  | some jsonValue =>
    if stringItem jsonValue fontVersion = some fontConfigVersion7 then .keep true
    else
      let refreshed := refreshFullNames fullNamesByPath configPath jsonValue
      if (numberItem jsonValue fontVersion).map valueint = some version then
        .write (replaceItemInObject fontVersion (createString fontConfigVersion7) refreshed)
          true false
      else .write (safeAddStringToObject fontVersion fontConfigVersion7 refreshed) true false

section queries

def listed (json : Option Json) : List Json := (json.bind (arrayItem · fontList)).getD []

def getInstalledFontsNum (json : Option Json) : Nat := (listed json).length

def getTotalInstalledFontsNum (json : Option Json) : Nat := (listed json).length

def getFontFileByName (fullName : Str) (json : Option Json) : Str :=
  (((listed json).find? (named fullName)).bind (stringItem · fontPath)).getD []

def getFontRecordByName (fullName : Str) (json : Option Json) : Option FontRecordInfo :=
  ((listed json).find? (named fullName)).map parseScopeRecord

def getFontRecordByUrl (srcPath : Str) (json : Option Json) : Option FontRecordInfo :=
  ((listed json).find? (atUrl srcPath)).map parseScopeRecord

def getFontRecordsByAppId (appIdentifier : Str) (json : Option Json) : List FontRecordInfo :=
  ((listed json).filter (ofApp appIdentifier)).map parseScopeRecord

def getScopeFontRecords (json : Option Json) : List FontRecordInfo :=
  ((listed json).filter (scopeWith (· ≥ 0))).map parseScopeRecord

def getAppScopeFontRecords (json : Option Json) : List FontRecordInfo :=
  ((listed json).filter (scopeWith (· = fontScopeApp))).map parseScopeRecord

end queries

end FontConfig
