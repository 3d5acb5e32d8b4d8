import FontManager.Source.ConfigFile
import FontManager.Source.ConfigScan

open FontConfig CJson ConfigFile

namespace ConfigScan

variable {fullName : Str} {item : Json}

section names

theorem pathIfNamed_eq (fullName : Str) (item : Json) (nameArr : List Json) :
    pathIfNamed fullName item nameArr =
      if (nameArr.filterMap stringValue).contains fullName then
        some ((stringItem item fontPath).getD [])
      else none := by
  induction nameArr with
  | nil => rfl
  | cons nameItem nameArr ih =>
    unfold pathIfNamed
    cases hvalue : stringValue nameItem with
    | none => simp [hvalue, ih]
    | some valuestring =>
      by_cases hname : fullName = valuestring
      · simp [hvalue, hname]
      · simp [hvalue, hname, ih]

theorem recordIfNamed_eq (fullName : Str) (item : Json) (nameArr : List Json) :
    recordIfNamed fullName item nameArr =
      if (nameArr.filterMap stringValue).contains fullName then some (parseScopeRecord item)
      else none := by
  induction nameArr with
  | nil => rfl
  | cons n nameArr ih =>
    unfold recordIfNamed
    cases hvalue : stringValue n with
    | none => simp [hvalue, ih]
    | some valuestring =>
      by_cases hname : valuestring = fullName
      · simp [hvalue, hname]
      · simp [hvalue, hname, Ne.symm hname, ih]

theorem not_named_of_no_array (h : arrayItem item fontFullName = none) :
    named fullName item = false := by
  simp [named, fullNamesOf, h]

theorem named_of_array (fullName : Str) {nameArr : List Json}
    (h : arrayItem item fontFullName = some nameArr) :
    named fullName item = (nameArr.filterMap stringValue).contains fullName := by
  simp only [named, fullNamesOf, h, Option.getD_some]

end names

section items

-- Both scans stop at the same item, the first one that has the name.
theorem findFontPathByName_eq (fullName : Str) (items : List Json) :
    findFontPathByName fullName items =
      ((items.find? (named fullName)).bind (stringItem · fontPath)).getD [] := by
  induction items with
  | nil => rfl
  | cons item items ih =>
    unfold findFontPathByName
    cases harray : arrayItem item fontFullName with
    | none => rw [List.find?_cons_of_neg (by simp [not_named_of_no_array harray]), ← ih]
    | some nameArr =>
      have hnamed := named_of_array fullName harray
      dsimp only
      rw [pathIfNamed_eq, ← hnamed]
      by_cases h : named fullName item = true
      · rw [if_pos h, List.find?_cons_of_pos h, Option.bind_some]
      · rw [if_neg h, List.find?_cons_of_neg h, ← ih]

theorem findRecordByName_eq (fullName : Str) (items : List Json) :
    findRecordByName fullName items = (items.find? (named fullName)).map parseScopeRecord := by
  induction items with
  | nil => rfl
  | cons item items ih =>
    unfold findRecordByName
    cases harray : arrayItem item fontFullName with
    | none => rw [List.find?_cons_of_neg (by simp [not_named_of_no_array harray]), ← ih]
    | some nameArr =>
      have hnamed := named_of_array fullName harray
      dsimp only
      rw [recordIfNamed_eq, ← hnamed]
      by_cases h : named fullName item = true
      · rw [if_pos h, List.find?_cons_of_pos h, Option.map_some]
      · rw [if_neg h, List.find?_cons_of_neg h, ← ih]

end items

section document

theorem getFontFileByName_eq (fullName : Str) (json : Option Json) :
    getFontFileByName fullName json = FontConfig.getFontFileByName fullName json := by
  cases json with
  | none => rfl
  | some j =>
    rw [getFontFileByName, FontConfig.getFontFileByName, listed, Option.bind_some]
    cases arrayItem j fontList with
    | none => rfl
    | some items => exact findFontPathByName_eq fullName items

theorem getFontRecordByName_eq (fullName : Str) (json : Option Json) :
    getFontRecordByName fullName json = FontConfig.getFontRecordByName fullName json := by
  cases json with
  | none => rfl
  | some j =>
    rw [getFontRecordByName, FontConfig.getFontRecordByName, listed, Option.bind_some]
    cases arrayItem j fontList with
    | none => rfl
    | some items => exact findRecordByName_eq fullName items

theorem file_eq_record_path (fullName : Str) (json : Option Json) :
    FontConfig.getFontFileByName fullName json =
      ((FontConfig.getFontRecordByName fullName json).map FontRecordInfo.fontPath).getD [] := by
  rw [FontConfig.getFontFileByName, FontConfig.getFontRecordByName]
  cases (listed json).find? (named fullName) <;> rfl

end document

section file

variable (text : CJsonText) (fullNamesByPath : Str → List Str) (configPath : Str)
  (io : FileIo) (disk : Option Bytes) (fullName : Str)

def fileByName : Str := getFontFileByName fullName (text.parse (checkConfigFile io disk))

def recordByName : Option FontRecordInfo :=
  getFontRecordByName fullName (text.parse (checkConfigFile io disk))

theorem perform_getFontFileByName :
    ConfigFile.perform text fullNamesByPath configPath (.getFontFileByName fullName) io disk =
      (fileByName text io disk fullName, disk) := by
  rw [fileByName, getFontFileByName_eq]
  rfl

theorem perform_getFontRecordByName :
    ConfigFile.perform text fullNamesByPath configPath (.getFontRecordByName fullName) io disk =
      (recordByName text io disk fullName, disk) := by
  rw [recordByName, getFontRecordByName_eq]
  rfl

theorem lookups_agree :
    fileByName text io disk fullName =
        ((recordByName text io disk fullName).map FontRecordInfo.fontPath).getD [] ∧
      (fileByName text io disk fullName = [] ↔
        recordByName text io disk fullName = none ∨
          ∃ record, recordByName text io disk fullName = some record ∧ record.fontPath = []) := by
  have hpath : fileByName text io disk fullName =
      ((recordByName text io disk fullName).map FontRecordInfo.fontPath).getD [] := by
    rw [fileByName, recordByName, getFontFileByName_eq, getFontRecordByName_eq,
      file_eq_record_path]
  refine ⟨hpath, ?_⟩
  rw [hpath]
  cases recordByName text io disk fullName with
  | none => simp
  | some record => simp

end file

end ConfigScan
