import FontManager.Source.Config

-- The two nested index loops of font_config.cpp that look a font up by its full name.
namespace ConfigScan

open CJson FontConfig

def pathIfNamed (fullName : Str) (item : Json) : List Json → Option Str
  | [] => none
  | nameItem :: nameArr =>
    match stringValue nameItem with
    | none => pathIfNamed fullName item nameArr
    | some valuestring =>
      if fullName ≠ valuestring then pathIfNamed fullName item nameArr
      else some ((stringItem item fontPath).getD [])

-- An item that has the name but no path ends the search: the empty path is returned.
def findFontPathByName (fullName : Str) : List Json → Str
  | [] => []
  | item :: fontList =>
    match arrayItem item fontFullName with
    | none => findFontPathByName fullName fontList
    | some nameArr =>
      match pathIfNamed fullName item nameArr with
      | some path => path
      | none => findFontPathByName fullName fontList

def getFontFileByName (fullName : Str) : Option Json → Str
  | none => []
  | some jsonValue =>
    match arrayItem jsonValue fontList with
    | none => []
    | some items => findFontPathByName fullName items

def recordIfNamed (fullName : Str) (item : Json) : List Json → Option FontRecordInfo
  | [] => none
  | n :: nameArr =>
    if stringValue n = some fullName then some (parseScopeRecord item)
    else recordIfNamed fullName item nameArr

def findRecordByName (fullName : Str) : List Json → Option FontRecordInfo
  | [] => none
  | item :: fontList =>
    match arrayItem item fontFullName with
    | none => findRecordByName fullName fontList
    | some nameArr =>
      match recordIfNamed fullName item nameArr with
      | some info => some info
      | none => findRecordByName fullName fontList

def getFontRecordByName (fullName : Str) : Option Json → Option FontRecordInfo
  | none => none
  | some jsonValue =>
    match arrayItem jsonValue fontList with
    | none => none
    | some items => findRecordByName fullName items

end ConfigScan
