import Mathlib.Data.Rat.Cast.Defs
import FontManager.Collection.Keyed
import FontManager.Source.Config

open FontDefine Text CJson

structure Record where
  fontPath : Str
  fullNames : List Str
  scope : Option Int
  srcPath : Option Str
  appIdentifier : Option Str
  bundleName : Option Str
deriving DecidableEq

namespace Record

def optional (s : Str) : Option Str := if s ≠ [] then some (cStr s) else none

def user (fontPath : Str) (fullNames : List Str) : Record where
  fontPath := cStr fontPath
  fullNames := fullNames.map cStr
  scope := none
  srcPath := none
  appIdentifier := none
  bundleName := none

def ofInfo (r : FontRecordInfo) : Record where
  fontPath := cStr r.fontPath
  fullNames := r.fullNames.map cStr
  scope := if r.scope ≥ 0 then some r.scope else none
  srcPath := optional r.srcPath
  appIdentifier := optional r.appIdentifier
  bundleName := optional r.bundleName

def clamp (n : Int) : Int := max intMin (min intMax n)

def info (r : Record) : FontRecordInfo where
  fontPath := r.fontPath
  fullNames := r.fullNames
  scope := (r.scope.map clamp).getD fontScopeNone
  srcPath := r.srcPath.getD []
  appIdentifier := r.appIdentifier.getD []
  bundleName := r.bundleName.getD []

def textField (name : Str) (value : Option Str) : List (Str × Json) :=
  (value.map fun s => (name, Json.string s)).toList

def item (r : Record) : Json :=
  .object ([(FontConfig.fontPath, .string r.fontPath),
      (FontConfig.fontFullName, .array (r.fullNames.map Json.string))] ++
    (r.scope.map fun n : Int => (FontConfig.fontScope, Json.number n)).toList ++
    textField FontConfig.fontSrcPath r.srcPath ++
    textField FontConfig.fontAppIdentifier r.appIdentifier ++
    textField FontConfig.fontBundleName r.bundleName)

def paths (r : Record) : List Str := [r.fontPath]

def urls (r : Record) : List Str := r.srcPath.toList

def apps (r : Record) : List Str := r.appIdentifier.toList

def inScope (p : Int → Bool) (r : Record) : Bool := r.scope.any fun n => p (clamp n)

theorem optional_of_nulFree {s : Str} (hs : s ≠ []) (h : NulFree s) : optional s = some s := by
  rw [optional, if_pos hs, cStr_of_nulFree h]

theorem valueint_intCast (n : Int) : valueint (n : Rat) = clamp n := by
  simp [valueint, clamp]

theorem constructCJSON_eq (path : Str) (names : List Str) :
    FontConfig.constructCJSON path names = (user path names).item := by
  simp only [FontConfig.constructCJSON, FontConfig.safeAddStringToObject, addItemToObject, item,
    user, textField, FontConfig.createString, List.map_map]
  rfl

theorem constructScopeCJSON_eq (r : FontRecordInfo) :
    FontConfig.constructScopeCJSON r = (ofInfo r).item := by
  simp only [FontConfig.constructScopeCJSON, constructCJSON_eq]
  by_cases hs : r.scope ≥ 0 <;> by_cases hu : r.srcPath = [] <;>
    by_cases ha : r.appIdentifier = [] <;> by_cases hb : r.bundleName = [] <;>
    simp [hs, hu, ha, hb, item, user, ofInfo, optional, textField, addItemToObject,
      FontConfig.safeAddStringToObject, FontConfig.safeAddNumberToObject, FontConfig.createString]

section fields

variable (r : Record)

theorem stringItem_fontPath : stringItem r.item FontConfig.fontPath = some r.fontPath := rfl

theorem arrayItem_fontFullName :
    FontConfig.arrayItem r.item FontConfig.fontFullName = some (r.fullNames.map Json.string) := rfl

theorem numberItem_fontScope :
    numberItem r.item FontConfig.fontScope = r.scope.map fun n : Int => (n : Rat) := by
  obtain ⟨_, _, _ | _, _ | _, _ | _, _ | _⟩ := r <;> rfl

theorem stringItem_fontSrcPath : stringItem r.item FontConfig.fontSrcPath = r.srcPath := by
  obtain ⟨_, _, _ | _, _ | _, _ | _, _ | _⟩ := r <;> rfl

theorem stringItem_fontAppIdentifier :
    stringItem r.item FontConfig.fontAppIdentifier = r.appIdentifier := by
  obtain ⟨_, _, _ | _, _ | _, _ | _, _ | _⟩ := r <;> rfl

theorem stringItem_fontBundleName :
    stringItem r.item FontConfig.fontBundleName = r.bundleName := by
  obtain ⟨_, _, _ | _, _ | _, _ | _, _ | _⟩ := r <;> rfl

theorem fullNamesOf_item : FontConfig.fullNamesOf r.item = r.fullNames := by
  simp [FontConfig.fullNamesOf, arrayItem_fontFullName, List.filterMap_map, FontConfig.stringValue,
    Function.comp_def]

theorem parseScopeRecord_item : FontConfig.parseScopeRecord r.item = r.info := by
  simp only [FontConfig.parseScopeRecord, stringItem_fontPath, fullNamesOf_item,
    numberItem_fontScope, stringItem_fontSrcPath, stringItem_fontAppIdentifier,
    stringItem_fontBundleName, Option.map_map, info]
  simp [Function.comp_def, valueint_intCast]

theorem item_injective {r r' : Record} (h : r.item = r'.item) : r = r' := by
  have hpath : r.fontPath = r'.fontPath := Option.some.inj
    ((stringItem_fontPath r).symm.trans (h ▸ stringItem_fontPath r'))
  have hnames : r.fullNames = r'.fullNames := by
    rw [← fullNamesOf_item r, h, fullNamesOf_item]
  have hscope : r.scope = r'.scope :=
    Option.map_injective (fun _ _ hn => Rat.intCast_injective hn)
      ((numberItem_fontScope r).symm.trans (h ▸ numberItem_fontScope r'))
  have hsrc : r.srcPath = r'.srcPath := by
    rw [← stringItem_fontSrcPath r, h, stringItem_fontSrcPath]
  have happ : r.appIdentifier = r'.appIdentifier := by
    rw [← stringItem_fontAppIdentifier r, h, stringItem_fontAppIdentifier]
  have hbundle : r.bundleName = r'.bundleName := by
    rw [← stringItem_fontBundleName r, h, stringItem_fontBundleName]
  cases r
  cases r'
  simp_all

end fields

section selectors

variable (r : Record)

theorem atPath_item (path : Str) :
    FontConfig.atPath path r.item = KeyedList.has paths path r :=
  Bool.eq_iff_iff.mpr (by simpa [FontConfig.atPath, stringItem_fontPath, paths] using eq_comm)

theorem named_item (name : Str) :
    FontConfig.named name r.item = KeyedList.has fullNames name r := by
  simp [FontConfig.named, fullNamesOf_item, KeyedList.has]

theorem atUrl_item (url : Str) : FontConfig.atUrl url r.item = KeyedList.has urls url r :=
  Bool.eq_iff_iff.mpr (by simp [FontConfig.atUrl, stringItem_fontSrcPath, urls])

theorem ofApp_item (id : Str) : FontConfig.ofApp id r.item = KeyedList.has apps id r :=
  Bool.eq_iff_iff.mpr (by simp [FontConfig.ofApp, stringItem_fontAppIdentifier, apps])

theorem scopeWith_item (p : Int → Bool) : FontConfig.scopeWith p r.item = r.inScope p := by
  cases h : r.scope <;> simp [FontConfig.scopeWith, numberItem_fontScope, inScope, valueint_intCast, h]

end selectors

end Record
