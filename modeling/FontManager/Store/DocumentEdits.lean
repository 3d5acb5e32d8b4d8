import FontManager.Store.Reread

open FontConfig CJson ConfigFile

namespace DocumentEdits

section document

-- All top-level entries but the array under the first fontlist are the same, in the same order.
def SameBut (items items' : List Json) (j j' : Json) : Prop :=
  ∃ front key back, (∀ f ∈ front, sameKey fontList f.1 = false) ∧ sameKey fontList key = true ∧
    j = .object (front ++ (key, .array items) :: back) ∧
    j' = .object (front ++ (key, .array items') :: back)

theorem modifyFirst_append {β : Type} {p : β → Bool} (f : β → β) {front : List β} {b : β}
    (back : List β) (hfront : ∀ x ∈ front, p x = false) (hb : p b = true) :
    modifyFirst p f (front ++ b :: back) = front ++ f b :: back := by
  induction front with
  | nil => simp [modifyFirst, hb]
  | cons x front ih =>
    obtain ⟨hx, hrest⟩ := List.forall_mem_cons.mp hfront
    simp [modifyFirst, hx, ih hrest]

variable {items : List Json} {j : Json}

theorem object_of_arrayItem (h : arrayItem j fontList = some items) :
    ∃ front key back, (∀ f ∈ front, sameKey fontList f.1 = false) ∧ sameKey fontList key = true ∧
      j = .object (front ++ (key, .array items) :: back) := by
  cases j with
  | object fields =>
    obtain ⟨list, hlist, hitems⟩ := Option.bind_eq_some_iff.mp h
    obtain ⟨⟨key, value⟩, hfound, rfl⟩ := Option.map_eq_some_iff.mp hlist
    obtain ⟨hkey, front, back, rfl, hfront⟩ := List.find?_eq_some_iff_append.mp hfound
    cases value with
    | array list =>
      obtain rfl : list = items := Option.some.inj hitems
      exact ⟨front, key, back, fun f hf => by simpa using hfront f hf, hkey, rfl⟩
    | _ => cases hitems
  | _ => cases h

theorem modifyObjectItem_sameBut (h : arrayItem j fontList = some items) {f : Json → Json}
    {items' : List Json} (hf : f (.array items) = .array items') :
    SameBut items items' j (modifyObjectItem f fontList j) := by
  obtain ⟨front, key, back, hfront, hkey, rfl⟩ := object_of_arrayItem h
  refine ⟨front, key, back, hfront, hkey, rfl, ?_⟩
  have hmodified := modifyFirst_append (p := fun g : Str × Json => sameKey fontList g.1)
    (fun g => (g.1, f g.2)) (b := (key, .array items)) back hfront hkey
  rw [modifyObjectItem, hmodified, hf]

theorem SameBut.refl (h : arrayItem j fontList = some items) : SameBut items items j j := by
  obtain ⟨front, key, back, hfront, hkey, rfl⟩ := object_of_arrayItem h
  exact ⟨front, key, back, hfront, hkey, rfl, rfl⟩

end document

section calls

variable (text : CJsonText) (names : Str → List Str) (path : Str)

-- A write succeeds when all the text reaches the file and parsing undoes printing.
def WriteSucceeds (op : ConfigOp) (io : FileIo) (disk : Option Bytes) : Prop :=
  ∀ json done failed, ConfigFile.edit text names path op io disk = .write json done failed →
    ∃ bytes, text.print json = some bytes ∧ text.parse bytes = some json ∧ io.opens = true ∧
      bytes.length ≤ min io.accepted io.flushed

variable {text names path} {op : ConfigOp} {io : FileIo} {disk : Option Bytes} {j json : Json}
  {done failed : op.Reply}

theorem perform_written (hwrites : WriteSucceeds text names path op io disk)
    (hread : io.readable = true) (hparse : text.parse (disk.getD []) = some j)
    (hedit : op.edit names path (some j) = .write json done failed) :
    (ConfigFile.perform text names path op io disk).1 = done ∧
      text.parse ((ConfigFile.perform text names path op io disk).2.getD []) = some json := by
  have hwrite := (Reread.edit_parsed hread hparse).trans hedit
  obtain ⟨bytes, hprint, hagain, hopens, hlength⟩ := hwrites json done failed hwrite
  have hall : bytes.take (min io.accepted io.flushed) = bytes := List.take_of_length_le hlength
  rw [Atomicity.perform_of_write hwrite, hprint]
  simp [writeToFile, hopens, hall, (le_min_iff.mp hlength).1, hagain]

theorem perform_kept {reply : op.Reply} (hread : io.readable = true)
    (hparse : text.parse (disk.getD []) = some j)
    (hedit : op.edit names path (some j) = .keep reply) :
    ConfigFile.perform text names path op io disk = (reply, disk) := by
  rw [ConfigFile.perform, Reread.edit_parsed hread hparse, hedit, finish]

theorem codec_writeSucceeds {before after : Str} {j j' : Json} {done failed : op.Reply}
    (hedit : op.edit names path (some j) = .write j' done failed) :
    WriteSucceeds (Reread.codec before after j j') names path op (Reread.roomFor after)
      (some (Reread.compact before)) := by
  intro json done' failed' hwrite
  have hrereads : Reread.Rereads (Reread.codec before after j j') names path op
      (Reread.roomFor after) (some (Reread.compact before)) := Reread.codec_rereads hedit
  exact ⟨Reread.indented after, rfl, hrereads json done' failed' _ hwrite rfl, rfl, by
    simp [Reread.roomFor]⟩

end calls

section mutators

inductive Mutator where
  | insertFontRecord (fontPath : Str) (fullNames : List Str)
  | insertFontRecordIfUnderLimit (fontPath : Str) (fullNames : List Str) (maxCount : Int)
  | insertScopeFontRecord (record : FontRecordInfo)
  | deleteFontRecord (fontPath : Str)
  | deleteScopeFontRecordByUrl (srcPath : Str)

def Appends (item : Json) (items items' : List Json) : Prop := items' = items ++ [item]

def RemovesFirst (selected : Json → Bool) (items items' : List Json) : Prop :=
  ∃ front item back, items = front ++ item :: back ∧ selected item = true ∧
    (∀ x ∈ front, selected x = false) ∧ items' = front ++ back

namespace Mutator

def op : Mutator → ConfigOp
  | insertFontRecord path names => .insertFontRecord path names
  | insertFontRecordIfUnderLimit path names maxCount =>
    .insertFontRecordIfUnderLimit path names maxCount
  | insertScopeFontRecord record => .insertScopeFontRecord record
  | deleteFontRecord path => .deleteFontRecord path
  | deleteScopeFontRecordByUrl srcPath => .deleteScopeFontRecordByUrl srcPath

def Idle (items : List Json) : Mutator → Prop
  | insertFontRecord path _ => ∃ x ∈ items, atPath path x = true
  | insertFontRecordIfUnderLimit path _ maxCount =>
    (∃ x ∈ items, atPath path x = true) ∨ maxCount ≤ (items.length : Int)
  | insertScopeFontRecord _ => False
  | deleteFontRecord path => ∀ x ∈ items, atPath path x = false
  | deleteScopeFontRecordByUrl srcPath => ∀ x ∈ items, atUrl srcPath x = false

def Effect : Mutator → List Json → List Json → Prop
  | insertFontRecord path names => Appends (constructCJSON path names)
  | insertFontRecordIfUnderLimit path names _ => Appends (constructCJSON path names)
  | insertScopeFontRecord record => Appends (constructScopeCJSON record)
  | deleteFontRecord path => RemovesFirst (atPath path)
  | deleteScopeFontRecordByUrl srcPath => RemovesFirst (atUrl srcPath)

end Mutator

variable {items : List Json} {j : Json}

theorem removesFirst_eraseIdx {selected : Json → Bool} {i : Nat}
    (h : items.findIdx? selected = some i) : RemovesFirst selected items (items.eraseIdx i) := by
  obtain ⟨hi, hselected, hbefore⟩ := List.findIdx?_eq_some_iff_getElem.mp h
  refine ⟨items.take i, items[i], items.drop (i + 1), ?_, hselected, fun x hx => ?_, ?_⟩
  · rw [← List.drop_eq_getElem_cons hi, List.take_append_drop]
  · obtain ⟨k, hk, rfl⟩ := List.mem_take_iff_getElem.mp hx
    exact Bool.eq_false_iff.mpr (hbefore k (lt_min_iff.mp hk).1)
  · exact List.eraseIdx_eq_take_drop_succ items i

theorem append_sameBut (hitems : arrayItem j fontList = some items) (item : Json) :
    ∃ items', SameBut items items' j (modifyObjectItem (addItemToArray item) fontList j) ∧
      Appends item items items' :=
  ⟨items ++ [item], modifyObjectItem_sameBut hitems rfl, rfl⟩

theorem getObjectItem_of_arrayItem (hitems : arrayItem j fontList = some items) :
    getObjectItem j fontList = some (.array items) := by
  obtain ⟨list, hlist, harray⟩ := Option.bind_eq_some_iff.mp hitems
  cases list with
  | array list =>
    obtain rfl : list = items := Option.some.inj harray
    exact hlist
  | _ => cases harray

theorem delete_spec (hitems : arrayItem j fontList = some items) (selected : Json → Bool) :
    ((∀ x ∈ items, selected x = false) ∧
        ∃ reply, deleteFirst selected (some j) = .keep reply) ∨
      ((¬ ∀ x ∈ items, selected x = false) ∧ ∃ items' j' done failed,
        deleteFirst selected (some j) = .write j' done failed ∧ SameBut items items' j j' ∧
          RemovesFirst selected items items') := by
  rw [deleteFirst, hitems, Option.bind_some]
  cases hfound : items.findIdx? selected with
  | none => exact .inl ⟨List.findIdx?_eq_none_iff.mp hfound, _, rfl⟩
  | some i =>
    obtain ⟨hi, hselected, -⟩ := List.findIdx?_eq_some_iff_getElem.mp hfound
    refine .inr ⟨fun h => ?_, items.eraseIdx i, _, _, _, rfl, modifyObjectItem_sameBut hitems rfl,
      removesFirst_eraseIdx hfound⟩
    exact absurd hselected (Bool.eq_false_iff.mp (h _ (List.getElem_mem hi)))

theorem Mutator.edit_spec (names : Str → List Str) (path : Str)
    (hitems : arrayItem j fontList = some items) (m : Mutator) :
    (m.Idle items ∧ ∃ reply, m.op.edit names path (some j) = .keep reply) ∨
      (¬ m.Idle items ∧ ∃ items' j' done failed,
        m.op.edit names path (some j) = .write j' done failed ∧ SameBut items items' j j' ∧
          m.Effect items items') := by
  have hlist := getObjectItem_of_arrayItem hitems
  cases m with
  | insertFontRecord fontPath fullNames =>
    obtain ⟨items', hsame, happends⟩ := append_sameBut hitems (constructCJSON fontPath fullNames)
    have hany : (children (.array items)).any (atPath fontPath) = true ↔
        ∃ x ∈ items, atPath fontPath x = true := List.any_eq_true
    simp only [op, ConfigOp.edit, FontConfig.insertFontRecord, hlist]
    by_cases hstored : ∃ x ∈ items, atPath fontPath x = true
    · rw [if_pos (hany.mpr hstored)]
      exact .inl ⟨hstored, _, rfl⟩
    · rw [if_neg fun h => hstored (hany.mp h)]
      exact .inr ⟨hstored, items', _, _, _, rfl, hsame, happends⟩
  | insertFontRecordIfUnderLimit fontPath fullNames maxCount =>
    obtain ⟨items', hsame, happends⟩ := append_sameBut hitems (constructCJSON fontPath fullNames)
    simp only [op, ConfigOp.edit, FontConfig.insertFontRecordIfUnderLimit, hitems]
    by_cases hstored : ∃ x ∈ items, atPath fontPath x = true
    · rw [if_pos (List.any_eq_true.mpr hstored)]
      exact .inl ⟨.inl hstored, _, rfl⟩
    · rw [if_neg fun h => hstored (List.any_eq_true.mp h)]
      by_cases hfull : (items.length : Int) ≥ maxCount
      · rw [if_pos hfull]
        exact .inl ⟨.inr hfull, _, rfl⟩
      · rw [if_neg hfull]
        exact .inr ⟨not_or.mpr ⟨hstored, hfull⟩, items', _, _, _, rfl, hsame, happends⟩
  | insertScopeFontRecord record =>
    obtain ⟨items', hsame, happends⟩ := append_sameBut hitems (constructScopeCJSON record)
    simp only [op, ConfigOp.edit, FontConfig.insertScopeFontRecord, hlist]
    exact .inr ⟨id, items', _, _, _, rfl, hsame, happends⟩
  | deleteFontRecord fontPath => exact delete_spec hitems (atPath fontPath)
  | deleteScopeFontRecordByUrl srcPath => exact delete_spec hitems (atUrl srcPath)

theorem mutators_leave_the_rest {text : CJsonText} {names : Str → List Str} {path : Str}
    {io : FileIo} {disk : Option Bytes} (m : Mutator) (hread : io.readable = true)
    (hparse : text.parse (disk.getD []) = some j) (hitems : arrayItem j fontList = some items)
    (hwrites : WriteSucceeds text names path m.op io disk) :
    (m.Idle items → (ConfigFile.perform text names path m.op io disk).2 = disk) ∧
      (¬ m.Idle items → ∃ items' j',
        text.parse ((ConfigFile.perform text names path m.op io disk).2.getD []) = some j' ∧
          SameBut items items' j j' ∧ m.Effect items items') := by
  rcases m.edit_spec names path hitems with ⟨hidle, reply, hedit⟩ | ⟨hbusy, hchanged⟩
  · refine ⟨fun _ => ?_, fun hbusy => absurd hidle hbusy⟩
    rw [perform_kept hread hparse hedit]
  · obtain ⟨items', j', done, failed, hedit, hsame, heffect⟩ := hchanged
    refine ⟨fun hidle => absurd hidle hbusy, fun _ => ?_⟩
    exact ⟨items', j', (perform_written hwrites hread hparse hedit).2, hsame, heffect⟩

def pathItem (path : Str) : Json := .object [(fontPath, .string path)]

def mixed (items : List Json) : Json :=
  .object [("extra".toList, .number 1), (fontList, .array items), ("tail".toList, .null)]

def mixedBefore : Str :=
  "extra\":1,\"fontlist\":[5,\x7b\"fontfullpath\":\"/a.ttf\"\x7d],\"tail\":null\x7d".toList

def mixedAfter : Str :=
  "\t\"extra\":\t1,\n\t\"fontlist\":\t[5],\n\t\"tail\":\tnull\n\x7d".toList

def mixedItems : List Json := [.number 5, pathItem "/a.ttf".toList]

def mixedCodec : CJsonText :=
  Reread.codec mixedBefore mixedAfter (mixed mixedItems) (mixed [.number 5])

theorem mixed_record_deleted :
    ∃ items' j', mixedCodec.parse ((ConfigFile.perform mixedCodec Reread.nameless []
        (.deleteFontRecord "/a.ttf".toList) (Reread.roomFor mixedAfter)
        (some (Reread.compact mixedBefore))).2.getD []) = some j' ∧
      SameBut mixedItems items' (mixed mixedItems) j' ∧
      RemovesFirst (atPath "/a.ttf".toList) mixedItems items' := by
  have hedit : (ConfigOp.deleteFontRecord "/a.ttf".toList).edit Reread.nameless []
      (some (mixed mixedItems)) = .write (mixed [.number 5]) true false := rfl
  refine (mutators_leave_the_rest (.deleteFontRecord "/a.ttf".toList) rfl
    (Reread.codec_parse_before mixedBefore mixedAfter _ _) rfl (codec_writeSucceeds hedit)).2 ?_
  exact fun hidle => absurd (hidle (pathItem "/a.ttf".toList) (by simp [mixedItems])) (by decide)

end mutators

section appIdentifier

variable {items : List Json} {j : Json}

def others (appIdentifier : Str) (items : List Json) : List Json :=
  items.filter fun item => !ofApp appIdentifier item

theorem deleteByAppId_spec (hitems : arrayItem j fontList = some items) (appIdentifier : Str) :
    ((∀ x ∈ items, ofApp appIdentifier x = false) ∧
        deleteScopeFontRecordByAppId appIdentifier (some j) = .keep false) ∨
      ((∃ x ∈ items, ofApp appIdentifier x = true) ∧ ∃ j',
        deleteScopeFontRecordByAppId appIdentifier (some j) = .write j' true false ∧
          SameBut items (others appIdentifier items) j j') := by
  rw [deleteScopeFontRecordByAppId]
  simp only [hitems, RecordStore.deleteEach_eq]
  by_cases hany : items.any (ofApp appIdentifier) = true
  · rw [if_pos hany]
    exact .inr ⟨List.any_eq_true.mp hany, _, rfl, modifyObjectItem_sameBut hitems rfl⟩
  · rw [if_neg hany]
    refine .inl ⟨fun x hx => ?_, rfl⟩
    exact Bool.eq_false_iff.mpr fun hx' => hany (List.any_eq_true.mpr ⟨x, hx, hx'⟩)

theorem others_of_none {appIdentifier : Str} (h : ∀ x ∈ items, ofApp appIdentifier x = false) :
    others appIdentifier items = items :=
  List.filter_eq_self.mpr fun x hx => by rw [h x hx]; rfl

theorem delete_by_app_filters {text : CJsonText} {names : Str → List Str} {path : Str}
    {io : FileIo} {disk : Option Bytes} (appIdentifier : Str) (hread : io.readable = true)
    (hparse : text.parse (disk.getD []) = some j) (hitems : arrayItem j fontList = some items)
    (hwrites : WriteSucceeds text names path (.deleteScopeFontRecordByAppId appIdentifier) io disk) :
    let result := ConfigFile.perform text names path (.deleteScopeFontRecordByAppId appIdentifier) io disk
    (∃ j', text.parse (result.2.getD []) = some j' ∧
        SameBut items (others appIdentifier items) j j') ∧
      (result.1 = true ↔ ∃ x ∈ items, ofApp appIdentifier x = true) ∧
      (result.1 = false → ConfigFile.edit text names path
        (.deleteScopeFontRecordByAppId appIdentifier) io disk = .keep false ∧ result.2 = disk) := by
  intro result
  rcases deleteByAppId_spec hitems appIdentifier with ⟨hnone, hedit⟩ | ⟨hsome, j', hedit, hsame⟩
  · have hresult : result = (false, disk) := perform_kept hread hparse hedit
    have hkeep : ConfigFile.edit text names path (.deleteScopeFontRecordByAppId appIdentifier) io
        disk = .keep false := (Reread.edit_parsed hread hparse).trans hedit
    rw [hresult, others_of_none hnone]
    refine ⟨⟨j, hparse, .refl hitems⟩, ?_, fun _ => ⟨hkeep, rfl⟩⟩
    simp only [Bool.false_eq_true, false_iff, not_exists, not_and, Bool.not_eq_true]
    exact hnone
  · obtain ⟨hreply, hagain⟩ := perform_written hwrites hread hparse hedit
    refine ⟨⟨j', hagain, hsame⟩, iff_of_true hreply hsome, fun hfailed => ?_⟩
    cases hreply.symm.trans hfailed

def appItem (appIdentifier : Str) : Json := .object [(fontAppIdentifier, .string appIdentifier)]

def appItems : List Json :=
  [appItem "app_5".toList, .number 5, appItem "app_6".toList, appItem "app_5".toList]

def appBefore : Str :=
  "fontlist\":[\x7b\"appIdentifier\":\"app_5\"\x7d,5,\x7b\"appIdentifier\":\"app_6\"\x7d,".toList ++
    "\x7b\"appIdentifier\":\"app_5\"\x7d]\x7d".toList

def appAfter : Str :=
  "\t\"fontlist\":\t[5, \x7b\n\t\t\t\"appIdentifier\":\t\"app_6\"\n\t\t\x7d]\n\x7d".toList

def appCodec : CJsonText :=
  Reread.codec appBefore appAfter (Reread.listIn (.array appItems))
    (Reread.listIn (.array [.number 5, appItem "app_6".toList]))

theorem app_items_filtered :
    ∃ j', appCodec.parse ((ConfigFile.perform appCodec Reread.nameless []
        (.deleteScopeFontRecordByAppId "app_5".toList) (Reread.roomFor appAfter)
        (some (Reread.compact appBefore))).2.getD []) = some j' ∧
      SameBut appItems (others "app_5".toList appItems) (Reread.listIn (.array appItems)) j' := by
  have hedit : (ConfigOp.deleteScopeFontRecordByAppId "app_5".toList).edit Reread.nameless []
      (some (Reread.listIn (.array appItems))) =
        .write (Reread.listIn (.array [.number 5, appItem "app_6".toList])) true false := rfl
  exact (delete_by_app_filters "app_5".toList rfl
    (Reread.codec_parse_before appBefore appAfter _ _) rfl (codec_writeSucceeds hedit)).1

end appIdentifier

end DocumentEdits
