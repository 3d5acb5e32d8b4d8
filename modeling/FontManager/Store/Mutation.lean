import FontManager.Store.Document
import FontManager.Store.Effects

open FontDefine FontManagerUtils FontConfig CJson

structure RecordKey where
  fontPath : Option Str
  scope : Option Rat
  srcPath : Option Str
  appIdentifier : Option Str
deriving DecidableEq

def keyOf (item : Json) : RecordKey where
  fontPath := stringItem item fontPath
  scope := numberItem item fontScope
  srcPath := stringItem item fontSrcPath
  appIdentifier := stringItem item fontAppIdentifier

def fontItems (json : Option Json) : List Json :=
  ((json.bind (getObjectItem · fontList)).map children).getD []

def listedKeys (json : Option Json) : List RecordKey := (listed json).map keyOf

theorem keys_provisioned (userIds : List Int) (u : Int) :
    listedKeys ((World.provisioned userIds).config u) = [] := by
  cases hconfig : (World.provisioned userIds).config u with
  | none => rfl
  | some json =>
    rw [World.config_provisioned hconfig]
    rfl

def arrayList (json : Option Json) : Bool := (json.bind (arrayItem · fontList)).isSome

def scalarList (json : Option Json) : Bool :=
  match json.bind (getObjectItem · fontList) with
  | none => false
  | some (.array _) => false
  | some (.object _) => false
  | some _ => true

namespace ConfigOp

def inserts : ConfigOp → Bool
  | .insertFontRecord _ _ => true
  | .insertFontRecordIfUnderLimit _ _ _ => true
  | .insertScopeFontRecord _ => true
  | _ => false

def succeeded : (op : ConfigOp) → op.Reply → Bool
  | .insertFontRecord _ _, r => r
  | .insertFontRecordIfUnderLimit _ _ _, r => decide (r = FontErrorCode.ok)
  | .insertScopeFontRecord _, r => r
  | .deleteFontRecord _, r => r
  | .deleteScopeFontRecordByUrl _, r => r
  | .deleteScopeFontRecordByAppId _, r => r
  | .checkAndUpdateFontRecord, r => r
  | _, _ => true

def insertKey (path : Str) (names : List Str) (keys : List RecordKey) : List RecordKey :=
  if keys.any fun k => k.fontPath == some path then keys
  else keys ++ [keyOf (constructCJSON path names)]

def expected : ConfigOp → List RecordKey → List RecordKey
  | .insertFontRecord path names, keys => insertKey path names keys
  | .insertFontRecordIfUnderLimit path names _, keys => insertKey path names keys
  | .insertScopeFontRecord record, keys => keys ++ [keyOf (constructScopeCJSON record)]
  | .deleteFontRecord path, keys => keys.eraseP fun k => k.fontPath == some path
  | .deleteScopeFontRecordByUrl srcPath, keys => keys.eraseP fun k => k.srcPath == some srcPath
  | .deleteScopeFontRecordByAppId id, keys => keys.filter fun k => !(k.appIdentifier == some id)
  | _, keys => keys

def insertItem (path : Str) (names : List Str) (items : List Json) : List Json :=
  if items.any (atPath path) then items else items ++ [constructCJSON path names]

-- What a success makes of the records that the operation read, where refresh is the fate of one.
def applied (refresh : Json → Json) : ConfigOp → List Json → List Json
  | .insertFontRecord path names, items => insertItem path names items
  | .insertFontRecordIfUnderLimit path names _, items => insertItem path names items
  | .insertScopeFontRecord record, items => items ++ [constructScopeCJSON record]
  | .deleteFontRecord path, items => items.eraseP (atPath path)
  | .deleteScopeFontRecordByUrl srcPath, items => items.eraseP (atUrl srcPath)
  | .deleteScopeFontRecordByAppId id, items => items.filter fun item => !ofApp id item
  | .checkAndUpdateFontRecord, items => items.map refresh
  | _, items => items

theorem applied_failure (op : ConfigOp) (b : Bool) (refresh : Json → Json) (items : List Json) :
    (bif op.succeeded op.failure && b then op.applied refresh items else items) = items := by
  cases op <;> cases b <;> rfl

theorem keys_insertItem (path : Str) (names : List Str) (items : List Json) :
    (insertItem path names items).map keyOf = insertKey path names (items.map keyOf) := by
  have hany : ((items.map keyOf).any fun k => k.fontPath == some path) = items.any (atPath path) := by
    rw [List.any_map]
    rfl
  rw [insertItem, insertKey, hany]
  split
  · rfl
  · rw [List.map_append, List.map_singleton]

theorem keys_applied {refresh : Json → Json} (h : ∀ item, keyOf (refresh item) = keyOf item)
    (op : ConfigOp) (items : List Json) :
    (op.applied refresh items).map keyOf = op.expected (items.map keyOf) := by
  cases op with
  | insertFontRecord path names => exact keys_insertItem path names items
  | insertFontRecordIfUnderLimit path names maxCount => exact keys_insertItem path names items
  | insertScopeFontRecord record => exact List.map_append
  | deleteFontRecord path =>
    rw [applied, expected, List.eraseP_map]
    rfl
  | deleteScopeFontRecordByUrl srcPath =>
    rw [applied, expected, List.eraseP_map]
    rfl
  | deleteScopeFontRecordByAppId id =>
    rw [applied, expected, List.filter_map]
    rfl
  | checkAndUpdateFontRecord =>
    rw [applied, List.map_map]
    exact List.map_congr_left fun item _ => h item
  | _ => rfl

end ConfigOp

-- An update reaches the records of an array only.
def refresher (names : Str → List Str) (path : Str) (json : Option Json) : Json → Json :=
  if arrayList json then refreshItem names path else id

structure Mutation (names : Str → List Str) (path : Str) (op : ConfigOp) (json : Option Json)
    (json' : Json) (done failed : op.Reply) : Prop where
  done : op.succeeded done = true
  failed : op.succeeded failed = false
  array : arrayList (some json') = arrayList json
  items : (op.inserts = true → scalarList json = false) →
    fontItems (some json') = op.applied (refresher names path json) (fontItems json)

namespace Mutation

theorem version_ne_fontList : sameKey fontVersion fontList = false := by decide

theorem fontList_ne_version : sameKey fontList fontVersion = false := by decide

theorem arrayList_congr {j j' : Json} (h : getObjectItem j' fontList = getObjectItem j fontList) :
    arrayList (some j') = arrayList (some j) := by
  simp only [arrayList, Option.bind_some, arrayItem, h]

theorem fontItems_congr {j j' : Json} (h : getObjectItem j' fontList = getObjectItem j fontList) :
    fontItems (some j') = fontItems (some j) := by
  simp only [fontItems, Option.bind_some, h]

theorem arrayList_modify {f : Json → Json}
    (h : ∀ list, (arrayItems (f list)).isSome = (arrayItems list).isSome) (j : Json) :
    arrayList (some (modifyObjectItem f fontList j)) = arrayList (some j) := by
  simp only [arrayList, Option.bind_some, arrayItem, getObjectItem_modifyObjectItem]
  cases getObjectItem j fontList with
  | none => rfl
  | some list => exact h list

theorem items_modify {f : Json → Json} {g : List Json → List Json} {j list : Json}
    (hlist : getObjectItem j fontList = some list) (h : children (f list) = g (children list)) :
    fontItems (some (modifyObjectItem f fontList j)) = g (fontItems (some j)) := by
  simp only [fontItems, Option.bind_some, getObjectItem_modifyObjectItem, hlist, Option.map_some,
    Option.getD_some, h]

theorem array_add (item list : Json) :
    (arrayItems (addItemToArray item list)).isSome = (arrayItems list).isSome := by
  cases list <;> rfl

theorem array_delete (i : Nat) (list : Json) :
    (arrayItems (deleteItemFromArray i list)).isSome = (arrayItems list).isSome := by
  cases list <;> rfl

theorem items_add (item : Json) {j list : Json} (hlist : getObjectItem j fontList = some list)
    (h : scalarList (some j) = false) :
    fontItems (some (modifyObjectItem (addItemToArray item) fontList j)) =
      fontItems (some j) ++ [item] := by
  refine items_modify (g := (· ++ [item])) hlist ?_
  cases list with
  | array items => simp [addItemToArray, children]
  | object fields => simp [addItemToArray, children]
  | _ => simp [scalarList, hlist] at h

section refresh

variable (names : Str → List Str) (path : Str)

theorem getObjectItem_refresh (item : Json) {name : Str} (h : sameKey fontFullName name = false)
    (h' : sameKey name fontFullName = false) :
    getObjectItem (refreshItem names path item) name = getObjectItem item name := by
  unfold refreshItem
  cases hpath : stringItem item FontConfig.fontPath with
  | none => rfl
  | some value =>
    simp only
    rw [getObjectItem_addItemToObject_ne _ _ h', getObjectItem_deleteItemFromObject_ne _ h]

theorem keyOf_refresh (item : Json) : keyOf (refreshItem names path item) = keyOf item := by
  simp only [keyOf, stringItem, numberItem]
  rw [getObjectItem_refresh names path item (by decide) (by decide),
    getObjectItem_refresh names path item (by decide) (by decide),
    getObjectItem_refresh names path item (by decide) (by decide),
    getObjectItem_refresh names path item (by decide) (by decide)]

theorem array_refresh (j : Json) :
    arrayList (some (refreshFullNames names path j)) = arrayList (some j) :=
  arrayList_modify (fun list => by cases list <;> rfl) j

theorem items_refresh (j : Json) :
    fontItems (some (refreshFullNames names path j)) =
      (fontItems (some j)).map (refresher names path (some j)) := by
  cases hlist : getObjectItem j fontList with
  | none =>
    simp only [fontItems, Option.bind_some, refreshFullNames, getObjectItem_modifyObjectItem, hlist,
      Option.map_none, Option.getD_none, List.map_nil]
  | some list =>
    refine items_modify (g := List.map (refresher names path (some j))) hlist ?_
    cases list with
    | array items => simp [children, refresher, arrayList, arrayItem, hlist, arrayItems]
    | _ => simp [children, refresher, arrayList, arrayItem, hlist, arrayItems]

end refresh

theorem list_of_items {j : Json} {items : List Json} (h : arrayItem j fontList = some items) :
    getObjectItem j fontList = some (.array items) := by
  unfold arrayItem at h
  cases hlist : getObjectItem j fontList with
  | none => simp [hlist] at h
  | some list =>
    rw [hlist, Option.bind_some] at h
    cases list with
    | array items' => rw [Option.some.inj h]
    | _ => cases h

theorem of_deleteFirst {p : Json → Bool} {json : Option Json} {json' : Json} {done failed : Bool}
    (h : deleteFirst p json = .write json' done failed) :
    done = true ∧ failed = false ∧ arrayList (some json') = arrayList json ∧
      fontItems (some json') = (fontItems json).eraseP p := by
  cases json with
  | none => cases h
  | some j =>
    simp only [deleteFirst] at h
    split at h
    · cases h
    · rename_i i hi
      obtain ⟨items, hitems, hi⟩ := Option.bind_eq_some_iff.mp hi
      obtain ⟨rfl, rfl, rfl⟩ := Edit.write.inj h
      refine ⟨rfl, rfl, arrayList_modify (array_delete i) j, ?_⟩
      have herase : items.eraseP p = items.eraseIdx i := List.eraseP_eq_eraseIdx.trans (by rw [hi])
      exact items_modify (g := List.eraseP p) (list_of_items hitems) herase.symm

theorem fontItems_of_list {j list : Json} (h : getObjectItem j fontList = some list) :
    fontItems (some j) = children list := by
  simp [fontItems, h]

theorem of_insert {path : Str} (names : List Str) {j list : Json}
    (hlist : getObjectItem j fontList = some list)
    (habsent : ¬ (children list).any (atPath path) = true) (hscalar : scalarList (some j) = false) :
    fontItems (some (modifyObjectItem (addItemToArray (constructCJSON path names)) fontList j)) =
      ConfigOp.insertItem path names (fontItems (some j)) := by
  rw [items_add _ hlist hscalar, fontItems_of_list hlist, ConfigOp.insertItem, if_neg habsent]

theorem of_update {names : Str → List Str} {path : Str} {j : Json} {json' : Json}
    {done failed : Bool}
    (h : checkAndUpdateFontRecord names path (some j) = .write json' done failed) :
    done = true ∧ failed = false ∧ arrayList (some json') = arrayList (some j) ∧
      fontItems (some json') = (fontItems (some j)).map (refresher names path (some j)) := by
  simp only [checkAndUpdateFontRecord] at h
  split at h
  · cases h
  · split at h
    · obtain ⟨rfl, rfl, rfl⟩ := Edit.write.inj h
      have hlist := getObjectItem_replaceItemInObject_ne (createString fontConfigVersion7)
        (refreshFullNames names path j) version_ne_fontList fontList_ne_version
      rw [arrayList_congr hlist, fontItems_congr hlist]
      exact ⟨rfl, rfl, array_refresh names path j, items_refresh names path j⟩
    · obtain ⟨rfl, rfl, rfl⟩ := Edit.write.inj h
      have hlist := getObjectItem_addItemToObject_ne (createString fontConfigVersion7)
        (refreshFullNames names path j) fontList_ne_version
      rw [safeAddStringToObject, arrayList_congr hlist, fontItems_congr hlist]
      exact ⟨rfl, rfl, array_refresh names path j, items_refresh names path j⟩

variable {names : Str → List Str} {path : Str} {json : Option Json} {op : ConfigOp} {json' : Json}
  {done failed reply : op.Reply}

theorem of_edit (h : op.edit names path json = .write json' done failed) :
    Mutation names path op json json' done failed := by
  cases json with
  | none =>
    rw [edit_none] at h
    cases h
  | some j =>
    cases op with
    | insertFontRecord fontPath fullNames =>
      simp only [ConfigOp.edit, insertFontRecord] at h
      split at h
      · cases h
      · rename_i list hlist
        split at h
        · cases h
        · rename_i habsent
          obtain ⟨rfl, rfl, rfl⟩ := Edit.write.inj h
          exact ⟨rfl, rfl, arrayList_modify (array_add _) j,
            fun hs => of_insert fullNames hlist habsent (hs rfl)⟩
    | insertFontRecordIfUnderLimit fontPath fullNames maxCount =>
      simp only [ConfigOp.edit, insertFontRecordIfUnderLimit] at h
      split at h
      · cases h
      · rename_i items hitems
        split at h
        · cases h
        · rename_i habsent
          split at h
          · cases h
          · obtain ⟨rfl, rfl, rfl⟩ := Edit.write.inj h
            exact ⟨rfl, rfl, arrayList_modify (array_add _) j,
              fun hs => of_insert fullNames (list_of_items hitems) habsent (hs rfl)⟩
    | insertScopeFontRecord record =>
      simp only [ConfigOp.edit, insertScopeFontRecord] at h
      split at h
      · cases h
      · rename_i list hlist
        obtain ⟨rfl, rfl, rfl⟩ := Edit.write.inj h
        exact ⟨rfl, rfl, arrayList_modify (array_add _) j, fun hs => items_add _ hlist (hs rfl)⟩
    | deleteFontRecord fontPath =>
      have hedit : deleteFirst (atPath fontPath) (some j) = .write json' done failed := h
      obtain ⟨hd, hf, harray, hitems⟩ := of_deleteFirst hedit
      exact ⟨hd, hf, harray, fun _ => hitems⟩
    | deleteScopeFontRecordByUrl srcPath =>
      have hedit : deleteFirst (atUrl srcPath) (some j) = .write json' done failed := h
      obtain ⟨hd, hf, harray, hitems⟩ := of_deleteFirst hedit
      exact ⟨hd, hf, harray, fun _ => hitems⟩
    | deleteScopeFontRecordByAppId id =>
      simp only [ConfigOp.edit, deleteScopeFontRecordByAppId] at h
      split at h
      · cases h
      · rename_i items hitems
        simp only [RecordStore.deleteEach_eq] at h
        split at h
        · obtain ⟨rfl, rfl, rfl⟩ := Edit.write.inj h
          have hlist := list_of_items hitems
          refine ⟨rfl, rfl, ?_, fun _ => ?_⟩
          · simp [arrayList, arrayItem, getObjectItem_modifyObjectItem, hlist, arrayItems]
          · exact items_modify (g := List.filter fun item => !ofApp id item) hlist rfl
        · cases h
    | checkAndUpdateFontRecord =>
      obtain ⟨hd, hf, harray, hitems⟩ := of_update h
      exact ⟨hd, hf, harray, fun _ => hitems⟩
    | _ => cases h

theorem kept_deleteFirst {p : Json → Bool} {reply : Bool} (h : deleteFirst p json = .keep reply) :
    reply = false := by
  cases json with
  | none => exact (Edit.keep.inj h).symm
  | some j =>
    simp only [deleteFirst] at h
    split at h
    · exact (Edit.keep.inj h).symm
    · cases h

theorem found_deleteFirst {p : Json → Bool} {done failed : Bool}
    (h : deleteFirst p json = .write json' done failed) :
    ∃ item, (listed json).find? p = some item := by
  cases json with
  | none => cases h
  | some j =>
    simp only [deleteFirst] at h
    split at h
    · cases h
    · next i hi =>
      obtain ⟨items, hitems, hi⟩ := Option.bind_eq_some_iff.mp hi
      obtain ⟨hlt, hp, -⟩ := List.findIdx?_eq_some_iff_getElem.mp hi
      rw [listed, Option.bind_some, hitems]
      exact Option.isSome_iff_exists.mp (List.find?_isSome.mpr ⟨_, List.getElem_mem hlt, hp⟩)

theorem kept (h : op.edit names path json = .keep reply) (hs : op.succeeded reply = true) :
    op.applied id (fontItems json) = fontItems json := by
  cases op with
  | insertFontRecord fontPath fullNames =>
    cases json with
    | none => cases Edit.keep.inj h; cases hs
    | some j =>
      simp only [ConfigOp.edit, insertFontRecord] at h
      split at h
      · cases Edit.keep.inj h
        cases hs
      · rename_i list hlist
        split at h
        · rename_i hpresent
          rw [fontItems_of_list hlist, ConfigOp.applied, ConfigOp.insertItem, if_pos hpresent]
        · cases h
  | insertFontRecordIfUnderLimit fontPath fullNames maxCount =>
    cases json with
    | none => cases Edit.keep.inj h; cases hs
    | some j =>
      simp only [ConfigOp.edit, insertFontRecordIfUnderLimit] at h
      split at h
      · cases Edit.keep.inj h
        cases hs
      · rename_i items hitems
        split at h
        · rename_i hpresent
          rw [fontItems_of_list (list_of_items hitems)]
          exact if_pos hpresent
        · split at h
          · cases Edit.keep.inj h
            cases hs
          · cases h
  | insertScopeFontRecord record =>
    cases json with
    | none => cases Edit.keep.inj h; cases hs
    | some j =>
      simp only [ConfigOp.edit, insertScopeFontRecord] at h
      split at h
      · cases Edit.keep.inj h
        cases hs
      · cases h
  | deleteFontRecord fontPath =>
    rw [show reply = false from kept_deleteFirst h] at hs
    cases hs
  | deleteScopeFontRecordByUrl srcPath =>
    rw [show reply = false from kept_deleteFirst h] at hs
    cases hs
  | deleteScopeFontRecordByAppId id =>
    cases json with
    | none => cases Edit.keep.inj h; cases hs
    | some j =>
      simp only [ConfigOp.edit, deleteScopeFontRecordByAppId] at h
      split at h
      · cases Edit.keep.inj h
        cases hs
      · simp only [RecordStore.deleteEach_eq] at h
        split at h
        · cases h
        · cases Edit.keep.inj h
          cases hs
  | checkAndUpdateFontRecord => exact List.map_id _
  | _ => rfl

theorem fontItems_array {json : Option Json} (h : arrayList json = true) :
    listed json = fontItems json ∧ scalarList json = false := by
  cases json with
  | none => cases h
  | some j =>
    obtain ⟨items, hitems⟩ := Option.isSome_iff_exists.mp h
    have hlist := list_of_items hitems
    refine ⟨?_, by simp [scalarList, hlist]⟩
    simp only [Option.bind_some] at hitems
    simp [listed, hitems, fontItems, hlist, children]

theorem listed_other {json : Option Json} (h : arrayList json = false) : listed json = [] := by
  cases hitems : json.bind (arrayItem · fontList) with
  | none => simp [listed, hitems]
  | some items => simp [arrayList, hitems] at h

theorem listed_eq (h : Mutation names path op json json' done failed) :
    listed (some json') =
      if arrayList json = true then op.applied (refreshItem names path) (listed json) else [] := by
  cases harray : arrayList json with
  | true =>
    obtain ⟨hitems, hscalar⟩ := fontItems_array harray
    rw [(fontItems_array (h.array.trans harray)).1, h.items fun _ => hscalar, hitems, if_pos rfl,
      refresher, if_pos harray]
  | false => exact listed_other (h.array.trans harray)

theorem listed_kept (h : Mutation names path op json json' done failed)
    (hop : op.inserts = false) :
    listed (some json') = op.applied (refreshItem names path) (listed json) := by
  rw [h.listed_eq]
  split
  · rfl
  · next hother =>
    rw [listed_other (Bool.eq_false_iff.mpr hother)]
    cases op <;> first | rfl | cases hop

theorem listedKeys_eq (h : Mutation names path op json json' done failed) :
    listedKeys (some json') =
      if arrayList json = true then op.expected (listedKeys json) else [] := by
  rw [listedKeys, h.listed_eq]
  split
  · exact ConfigOp.keys_applied (keyOf_refresh names path) op _
  · rfl

theorem arrayList_of_listed (h : listed json ≠ []) : arrayList json = true := by
  cases hitems : json.bind (arrayItem · fontList) with
  | none => simp [listed, hitems] at h
  | some items => simp [arrayList, hitems]

theorem edit_insertScope (names : Str → List Str) (path : Str) (record : FontRecordInfo) {j : Json}
    (h : arrayList (some j) = true) :
    ∃ json', (ConfigOp.insertScopeFontRecord record).edit names path (some j) =
      .write json' true false := by
  obtain ⟨items, hitems⟩ := Option.isSome_iff_exists.mp h
  refine ⟨modifyObjectItem (addItemToArray (constructScopeCJSON record)) fontList j, ?_⟩
  simp [ConfigOp.edit, insertScopeFontRecord, list_of_items hitems]

theorem length_expected (op : ConfigOp) (keys : List RecordKey) :
    (op.expected keys).length ≤ keys.length + op.inserts.toNat := by
  have hinsert : ∀ path names, (ConfigOp.insertKey path names keys).length ≤ keys.length + 1 := by
    intro path names
    rw [ConfigOp.insertKey]
    split
    · exact Nat.le_succ _
    · simp
  cases op with
  | insertFontRecord path names => exact hinsert path names
  | insertFontRecordIfUnderLimit path names maxCount => exact hinsert path names
  | insertScopeFontRecord record => simp [ConfigOp.expected, ConfigOp.inserts]
  | deleteFontRecord path => exact List.eraseP_sublist.length_le
  | deleteScopeFontRecordByUrl srcPath => exact List.eraseP_sublist.length_le
  | deleteScopeFontRecordByAppId id => exact List.length_filter_le _ _
  | _ => exact Nat.le_refl _

theorem length_listed (h : Mutation names path op json json' done failed) :
    (listed (some json')).length ≤ (listed json).length + op.inserts.toNat := by
  have hkeys := congrArg List.length h.listedKeys_eq
  have hlength : (listedKeys json).length = (listed json).length := List.length_map _
  rw [listedKeys, List.length_map] at hkeys
  rw [hkeys]
  split
  · exact hlength ▸ length_expected op _
  · exact Nat.zero_le _

-- An update refreshes every record, unless the list has the latest version.
def rewrites (json : Option Json) : Bool :=
  json.any fun j => stringItem j fontVersion ≠ some fontConfigVersion7

def updater (names : Str → List Str) (path : Str) (json : Option Json) : Json → Json :=
  if rewrites json then refreshItem names path else id

theorem keyOf_updater (names : Str → List Str) (path : Str) (json : Option Json) (item : Json) :
    keyOf (updater names path json item) = keyOf item := by
  unfold updater
  split
  · exact keyOf_refresh names path item
  · rfl

theorem rewrites_of_write {done failed : Bool}
    (h : checkAndUpdateFontRecord names path json = .write json' done failed) :
    rewrites json = true := by
  cases json with
  | none => cases h
  | some j =>
    simp only [checkAndUpdateFontRecord] at h
    split at h
    · cases h
    · rename_i hversion
      exact decide_eq_true hversion

theorem rewrites_of_keep (h : checkAndUpdateFontRecord names path json = .keep true) :
    rewrites json = false := by
  cases json with
  | none => rfl
  | some j =>
    simp only [checkAndUpdateFontRecord] at h
    split at h
    · rename_i hversion
      exact decide_eq_false (not_not_intro hversion)
    · split at h <;> cases h

theorem applied_other (h : op ≠ .checkAndUpdateFontRecord) (refresh refresh' : Json → Json)
    (items : List Json) : op.applied refresh items = op.applied refresh' items := by
  cases op with
  | checkAndUpdateFontRecord => exact absurd rfl h
  | _ => rfl

theorem kept_updater (h : op.edit names path json = .keep reply) (hs : op.succeeded reply = true) :
    op.applied (updater names path json) (fontItems json) = fontItems json := by
  by_cases hop : op = .checkAndUpdateFontRecord
  · subst hop
    obtain rfl : reply = true := hs
    rw [updater, rewrites_of_keep h]
    exact List.map_id _
  · rw [applied_other hop _ id, kept h hs]

theorem listed_updated (h : op.edit names path json = .write json' done failed)
    (harray : arrayList json = true) :
    listed (some json') = op.applied (updater names path json) (listed json) := by
  rw [(of_edit h).listed_eq, if_pos harray]
  by_cases hop : op = .checkAndUpdateFontRecord
  · subst hop
    rw [updater, rewrites_of_write h, if_pos rfl]
  · exact applied_other hop _ _ _

theorem listed_execConfig (w : World) (u : Int) (op : ConfigOp) {io : Io}
    (hio : io.write = .complete) :
    listed ((w.execConfig u op io).2.config u) =
      bif op.succeeded (w.execConfig u op io).1 && arrayList (w.config u) then
        op.applied (updater io.fullNames (configPath u) (w.config u)) (listed (w.config u))
      else listed (w.config u) := by
  cases hread : io.ok with
  | false =>
    rw [World.execConfig_unreadable hread]
    exact (op.applied_failure _ _ _).symm
  | true => ?_
  rw [World.execConfig_readable hread, hio]
  cases hedit : op.edit io.fullNames (configPath u) (w.config u) with
  | keep reply =>
    simp only [World.applyEdit]
    cases hs : op.succeeded reply with
    | false => rfl
    | true =>
      cases harray : arrayList (w.config u) with
      | false => rfl
      | true =>
        rw [(fontItems_array harray).1, kept_updater hedit hs]
        rfl
  | write json done failed =>
    simp only [World.applyEdit, World.writeFile, if_true, World.config_configPath,
      (of_edit hedit).done, Bool.true_and]
    cases harray : arrayList (w.config u) with
    | true => exact listed_updated hedit harray
    | false =>
      rw [listed_other harray]
      exact listed_other ((of_edit hedit).array.trans harray)

theorem listedKeys_execConfig (w : World) (u : Int) (op : ConfigOp) {io : Io}
    (hio : io.write = .complete) :
    listedKeys ((w.execConfig u op io).2.config u) =
      bif op.succeeded (w.execConfig u op io).1 && arrayList (w.config u) then
        op.expected (listedKeys (w.config u))
      else listedKeys (w.config u) := by
  rw [listedKeys, listed_execConfig w u op hio]
  cases op.succeeded (w.execConfig u op io).1 && arrayList (w.config u) with
  | true => exact ConfigOp.keys_applied (keyOf_updater _ _ _) op _
  | false => rfl

end Mutation
