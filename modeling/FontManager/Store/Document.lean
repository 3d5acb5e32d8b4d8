import FontManager.Source.World
import FontManager.Store.Record

open FontDefine Text CJson KeyedList

namespace Edit

variable {δ ε α : Type}

def map (f : δ → ε) : Edit δ α → Edit ε α
  | .keep reply => .keep reply
  | .write d done failed => .write (f d) done failed

end Edit

namespace RecordStore

def document (rs : List Record) : Json :=
  .object [(FontConfig.fontList, .array (rs.map Record.item)),
    (FontConfig.fontVersion, .string fontConfigVersion7)]

def deleteFirst (selected : Record → Bool) (rs : List Record) : Edit (List Record) Bool :=
  if rs.any selected then .write (rs.eraseP selected) true false else .keep false

def findInfo (selected : Record → Bool) (rs : List Record) : Option FontRecordInfo :=
  (rs.find? selected).map Record.info

def collect (selected : Record → Bool) (rs : List Record) : List FontRecordInfo :=
  (rs.filter selected).map Record.info

def edit (rs : List Record) : (op : ConfigOp) → Edit (List Record) op.Reply
  | .insertFontRecord path names =>
    if rs.any (has Record.paths path) then .keep true
    else .write (rs ++ [Record.user path names]) true false
  | .insertFontRecordIfUnderLimit path names maxCount =>
    if rs.any (has Record.paths path) then .keep FontErrorCode.ok
    else if (rs.length : Int) ≥ maxCount then .keep FontErrorCode.maxFileCount
    else .write (rs ++ [Record.user path names]) FontErrorCode.ok FontErrorCode.installFail
  | .insertScopeFontRecord record => .write (rs ++ [Record.ofInfo record]) true false
  | .deleteFontRecord path => deleteFirst (has Record.paths path) rs
  | .deleteScopeFontRecordByUrl srcPath => deleteFirst (has Record.urls srcPath) rs
  | .deleteScopeFontRecordByAppId id =>
    if rs.any (has Record.apps id) then .write (rs.filter fun r => !has Record.apps id r) true false
    else .keep false
  | .checkAndUpdateFontRecord => .keep true
  | .getInstalledFontsNum => .keep rs.length
  | .getTotalInstalledFontsNum => .keep rs.length
  | .getFontFileByName name =>
    .keep (((rs.find? (has Record.fullNames name)).map Record.fontPath).getD [])
  | .getFontRecordByName name => .keep (findInfo (has Record.fullNames name) rs)
  | .getFontRecordByUrl srcPath => .keep (findInfo (has Record.urls srcPath) rs)
  | .getFontRecordsByAppId id => .keep (collect (has Record.apps id) rs)
  | .getScopeFontRecords => .keep (collect (Record.inScope (· ≥ 0)) rs)
  | .getAppScopeFontRecords => .keep (collect (Record.inScope (· = fontScopeApp)) rs)

section document

variable (rs : List Record)

theorem getObjectItem_document :
    getObjectItem (document rs) FontConfig.fontList = some (.array (rs.map Record.item)) := rfl

theorem arrayItem_document :
    FontConfig.arrayItem (document rs) FontConfig.fontList = some (rs.map Record.item) := rfl

theorem listed_document : FontConfig.listed (some (document rs)) = rs.map Record.item := rfl

theorem append_document (r : Record) :
    modifyObjectItem (addItemToArray r.item) FontConfig.fontList (document rs) =
      document (rs ++ [r]) := by
  simp only [document, List.map_append]
  rfl

theorem replace_document (rs' : List Record) :
    modifyObjectItem (fun _ => .array (rs'.map Record.item)) FontConfig.fontList (document rs) =
      document rs' := rfl

theorem eraseIdx_document (i : Nat) :
    modifyObjectItem (deleteItemFromArray i) FontConfig.fontList (document rs) =
      document (rs.eraseIdx i) := by
  simp only [document, ← List.eraseIdx_map]
  rfl

end document

section selection

variable {p : Json → Bool} {q : Record → Bool} (h : ∀ r : Record, p r.item = q r)

include h

theorem any_items (rs : List Record) : (rs.map Record.item).any p = rs.any q := by
  simp [List.any_map, Function.comp_def, h]

theorem find_items (rs : List Record) :
    (rs.map Record.item).find? p = (rs.find? q).map Record.item := by
  rw [List.find?_map, show p ∘ Record.item = q from funext h]

theorem filter_items (rs : List Record) :
    (rs.map Record.item).filter p = (rs.filter q).map Record.item := by
  simp [List.filter_map, Function.comp_def, h]

theorem findIdx_items (rs : List Record) : (rs.map Record.item).findIdx? p = rs.findIdx? q := by
  simp [List.findIdx?_map, Function.comp_def, h]

theorem deleteFirst_document (rs : List Record) :
    FontConfig.deleteFirst p (some (document rs)) = (deleteFirst q rs).map document := by
  simp only [FontConfig.deleteFirst, arrayItem_document, Option.bind_some, findIdx_items h]
  cases hi : rs.findIdx? q with
  | none =>
    have hany : rs.any q = false := by
      rw [List.any_eq_false]
      exact fun r hr => by simpa using List.findIdx?_eq_none_iff.mp hi r hr
    simp [deleteFirst, hany, Edit.map]
  | some i =>
    obtain ⟨hlt, hq, -⟩ := List.findIdx?_eq_some_iff_getElem.mp hi
    have hany : rs.any q = true := List.any_eq_true.mpr ⟨rs[i], List.getElem_mem hlt, hq⟩
    have herase : rs.eraseP q = rs.eraseIdx i := List.eraseP_eq_eraseIdx.trans (by rw [hi])
    simp only [deleteFirst, hany, if_true, Edit.map, eraseIdx_document, herase]

theorem findInfo_items (rs : List Record) :
    ((rs.map Record.item).find? p).map FontConfig.parseScopeRecord = findInfo q rs := by
  simp [find_items h, findInfo, Function.comp_def, Record.parseScopeRecord_item]

theorem collect_items (rs : List Record) :
    ((rs.map Record.item).filter p).map FontConfig.parseScopeRecord = collect q rs := by
  simp [filter_items h, collect, Function.comp_def, Record.parseScopeRecord_item]

end selection

theorem deleteEach_take (p : Json → Bool) (k : Nat) (items : List Json) (changed : Bool)
    (hk : k ≤ items.length) :
    (List.range k).foldr
        (fun i (items, changed) =>
          if items[i]?.any p then (items.eraseIdx i, true) else (items, changed)) (items, changed) =
      (((items.take k).filter fun j => !p j) ++ items.drop k, changed || (items.take k).any p) := by
  induction k generalizing items changed with
  | zero => simp
  | succ k ih =>
    have hget : items[k]? = some items[k] := List.getElem?_eq_getElem hk
    have htake : items.take (k + 1) = items.take k ++ [items[k]] := (List.take_concat_get' ..).symm
    have hdrop : items.drop k = items[k] :: items.drop (k + 1) := List.drop_eq_getElem_cons hk
    have hany : (items.take k ++ [items[k]]).any p = ((items.take k).any p || p items[k]) := by
      rw [List.any_append, List.any_cons, List.any_nil, Bool.or_false]
    rw [List.range_succ, List.foldr_append, htake, List.filter_append, hany]
    simp only [List.foldr_cons, List.foldr_nil, hget, Option.any_some]
    by_cases hp : p items[k] = true
    · have hlen : k ≤ (items.eraseIdx k).length := by
        rw [List.length_eraseIdx_of_lt hk]
        omega
      have hk' : (items.take k).length = k := List.length_take_of_le (Nat.le_of_lt hk)
      rw [if_pos hp, ih _ _ hlen, List.eraseIdx_eq_take_drop_succ, List.take_left' hk',
        List.drop_left' hk', List.filter_cons_of_neg (by simp [hp]), List.filter_nil,
        List.append_nil, hp, Bool.or_true, Bool.or_true, Bool.true_or]
    · rw [if_neg hp, ih _ _ (Nat.le_of_lt hk), hdrop, List.filter_cons_of_pos (by simp [hp]),
        List.filter_nil, List.append_assoc, List.singleton_append, Bool.eq_false_iff.mpr hp,
        Bool.or_false]

theorem deleteEach_eq (p : Json → Bool) (items : List Json) :
    FontConfig.deleteEach p items = (items.filter fun j => !p j, items.any p) := by
  rw [FontConfig.deleteEach, deleteEach_take p _ _ _ (Nat.le_refl _)]
  simp

theorem edit_document (names : Str → List Str) (path : Str) (rs : List Record) (op : ConfigOp) :
    op.edit names path (some (document rs)) = (edit rs op).map document := by
  cases op with
  | insertFontRecord path names =>
    simp only [ConfigOp.edit, FontConfig.insertFontRecord, getObjectItem_document, children,
      any_items (Record.atPath_item · path), Record.constructCJSON_eq, append_document, edit]
    split <;> rfl
  | insertFontRecordIfUnderLimit path names maxCount =>
    simp only [ConfigOp.edit, FontConfig.insertFontRecordIfUnderLimit, arrayItem_document,
      any_items (Record.atPath_item · path), Record.constructCJSON_eq, append_document, edit,
      List.length_map]
    split
    · rfl
    · split <;> rfl
  | insertScopeFontRecord record =>
    simp only [ConfigOp.edit, FontConfig.insertScopeFontRecord, getObjectItem_document,
      Record.constructScopeCJSON_eq, append_document, edit]
    rfl
  | deleteFontRecord path => exact deleteFirst_document (Record.atPath_item · path) rs
  | deleteScopeFontRecordByUrl srcPath => exact deleteFirst_document (Record.atUrl_item · srcPath) rs
  | deleteScopeFontRecordByAppId id =>
    have hrest := filter_items (p := fun j => !FontConfig.ofApp id j)
      (q := fun r => !has Record.apps id r) (fun r => by rw [Record.ofApp_item]) rs
    simp only [ConfigOp.edit, FontConfig.deleteScopeFontRecordByAppId, arrayItem_document,
      deleteEach_eq, any_items (Record.ofApp_item · id), hrest, replace_document, edit]
    split <;> rfl
  | checkAndUpdateFontRecord => rfl
  | getInstalledFontsNum => exact congrArg Edit.keep (List.length_map _)
  | getTotalInstalledFontsNum => exact congrArg Edit.keep (List.length_map _)
  | getFontFileByName name =>
    refine congrArg Edit.keep ?_
    rw [FontConfig.getFontFileByName, listed_document, find_items (Record.named_item · name)]
    cases rs.find? (has Record.fullNames name) <;> rfl
  | getFontRecordByName name =>
    exact congrArg Edit.keep (findInfo_items (Record.named_item · name) rs)
  | getFontRecordByUrl srcPath =>
    exact congrArg Edit.keep (findInfo_items (Record.atUrl_item · srcPath) rs)
  | getFontRecordsByAppId id => exact congrArg Edit.keep (collect_items (Record.ofApp_item · id) rs)
  | getScopeFontRecords => exact congrArg Edit.keep (collect_items (Record.scopeWith_item · _) rs)
  | getAppScopeFontRecords => exact congrArg Edit.keep (collect_items (Record.scopeWith_item · _) rs)

end RecordStore
