import FontManager.Store.Atomicity
import FontManager.Store.RecordCodec

open FontDefine FontManagerUtils FontConfig CJson ConfigFile Text

namespace Reread

variable {text : CJsonText} {names : Str → List Str} {path : Str} {io io' : FileIo}
  {disk : Option Bytes} {j : Json}

-- Parsing undoes printing, for the document that the operation prints.
def Rereads (text : CJsonText) (names : Str → List Str) (path : Str) (op : ConfigOp) (io : FileIo)
    (disk : Option Bytes) : Prop :=
  ∀ json done failed bytes, ConfigFile.edit text names path op io disk = .write json done failed →
    text.print json = some bytes → text.parse bytes = some json

theorem edit_parsed {op : ConfigOp} (hread : io.readable = true)
    (hparse : text.parse (disk.getD []) = some j) :
    ConfigFile.edit text names path op io disk = op.edit names path (some j) := by
  rw [ConfigFile.edit, checkConfigFile, if_pos hread, hparse]

-- A write that reports its success and flushes what it accepted can be read again.
theorem parse_written {op : ConfigOp} {json : Json} {done failed : op.Reply}
    (htext : Rereads text names path op io disk)
    (hedit : ConfigFile.edit text names path op io disk = .write json done failed)
    (hreply : (ConfigFile.perform text names path op io disk).1 ≠ failed)
    (hflush : io.accepted ≤ io.flushed) :
    text.parse ((ConfigFile.perform text names path op io disk).2.getD []) = some json := by
  rw [Atomicity.perform_of_write hedit] at hreply ⊢
  cases hprint : text.print json with
  | none => simp [hprint, writeToFile] at hreply
  | some fileData =>
    rw [hprint] at hreply
    by_cases hwrite : io.opens = true ∧ fileData.length ≤ io.accepted
    · obtain ⟨hopens, hlength⟩ := hwrite
      have hall : fileData.take (min io.accepted io.flushed) = fileData :=
        List.take_of_length_le (le_min hlength (hlength.trans hflush))
      simp [writeToFile, hopens, hall, htext json done failed fileData hedit hprint]
    · refine absurd ?_ hreply
      by_cases hopens : io.opens = true
      · have hlong : ¬ fileData.length ≤ io.accepted := fun h => hwrite ⟨hopens, h⟩
        rw [writeToFile, if_pos hopens, decide_eq_false hlong]
        rfl
      · rw [writeToFile, if_neg hopens]
        rfl

section sample

def ascii (s : Str) : Bytes := s.map fun c => c.toNat.toUInt8

def compact (body : Str) : Bytes := ascii ("\x7b\"".toList ++ body)

def indented (body : Str) : Bytes := ascii ("\x7b\n".toList ++ body)

theorem indented_ne_compact (body body' : Str) : indented body ≠ compact body' := by
  simp [indented, compact, ascii]

-- cJSON on the texts of one write, which turns the first into the second.
def codec (before after : Str) (j j' : Json) : CJsonText where
  parse bytes :=
    if bytes = compact before then some j
    else if bytes = indented after then some j'
    else none
  print _ := some (indented after)

def nameless : Str → List Str := fun _ => []

def roomFor (after : Str) : FileIo := ⟨true, true, (indented after).length, (indented after).length⟩

variable {before after : Str} {op : ConfigOp} {j' : Json} {done failed : op.Reply}

theorem codec_parse_before (before after : Str) (j j' : Json) :
    (codec before after j j').parse ((some (compact before)).getD []) = some j :=
  if_pos rfl

theorem codec_rereads (hedit : op.edit names path (some j) = .write j' done failed) :
    Rereads (codec before after j j') names path op (roomFor after) (some (compact before)) := by
  intro json done' failed' bytes hwrite hprint
  obtain rfl : indented after = bytes := Option.some.inj hprint
  rw [edit_parsed rfl (codec_parse_before before after j j'), hedit] at hwrite
  obtain ⟨rfl, -, -⟩ := Edit.write.inj hwrite
  simp [codec, indented_ne_compact]

theorem codec_perform (hedit : op.edit names path (some j) = .write j' done failed) :
    ConfigFile.perform (codec before after j j') names path op (roomFor after) (some (compact before)) =
      (done, some (indented after)) := by
  rw [Atomicity.perform_of_write ((edit_parsed rfl (codec_parse_before before after j j')).trans hedit)]
  simp [codec, roomFor, writeToFile]

end sample

section insertion

variable {r : FontRecordInfo}

structure Storable (r : FontRecordInfo) : Prop where
  scope : fontScopeNone ≤ r.scope
  scopeMax : r.scope ≤ intMax
  srcPath : r.srcPath ≠ []
  nulFree : ∀ s ∈ r.fontPath :: r.srcPath :: r.appIdentifier :: r.bundleName :: r.fullNames, NulFree s

theorem info_ofInfo (h : Storable r) : (Record.ofInfo r).info = r :=
  RecordCodec.info_ofInfo h.scope h.scopeMax h.nulFree

section document

variable {p : Str}

theorem atUrl_constructed (hr : Storable r) (p : Str) :
    atUrl p (constructScopeCJSON r) = decide (r.srcPath = p) := by
  have hsrc : (Record.ofInfo r).srcPath = some r.srcPath :=
    Record.optional_of_nulFree hr.srcPath (hr.nulFree _ (by simp))
  rw [Record.constructScopeCJSON_eq, atUrl, Record.stringItem_fontSrcPath, hsrc]
  exact Bool.eq_iff_iff.mpr (by simp)

theorem getFontRecordByUrl_inserted {j' : Json} {items : List Json} (hr : Storable r)
    (hitems : listed (some j) = items) (h : listed (some j') = items ++ [constructScopeCJSON r])
    (hfresh : getFontRecordByUrl r.srcPath (some j) = none) (p : Str) :
    getFontRecordByUrl p (some j') =
      if p = r.srcPath then some r else getFontRecordByUrl p (some j) := by
  subst hitems
  rw [getFontRecordByUrl, Option.map_eq_none_iff] at hfresh
  rw [getFontRecordByUrl, getFontRecordByUrl, h, List.find?_append]
  by_cases hp : p = r.srcPath
  · subst hp
    have hfound : [constructScopeCJSON r].find? (atUrl r.srcPath) = some (constructScopeCJSON r) := by
      simp [atUrl_constructed hr]
    rw [hfresh, hfound, if_pos rfl, Option.none_or, Option.map_some, Record.constructScopeCJSON_eq,
      Record.parseScopeRecord_item, info_ofInfo hr]
  · have hnone : [constructScopeCJSON r].find? (atUrl p) = none := by
      simp [atUrl_constructed hr, Ne.symm hp]
    rw [if_neg hp, hnone, Option.or_none]

theorem arrayItem_inserted (r : FontRecordInfo) (j : Json) :
    arrayItem (modifyObjectItem (addItemToArray (constructScopeCJSON r)) fontList j) fontList =
      (arrayItem j fontList).map (· ++ [constructScopeCJSON r]) := by
  simp only [arrayItem, getObjectItem_modifyObjectItem]
  cases getObjectItem j fontList with
  | none => rfl
  | some list => cases list <;> rfl

theorem query_parsed (hread : io.readable = true) (hparse : text.parse (disk.getD []) = some j)
    (p : Str) : (ConfigFile.perform text names path (.getFontRecordByUrl p) io disk).1 =
      getFontRecordByUrl p (some j) := by
  rw [ConfigFile.perform, edit_parsed hread hparse]
  rfl

theorem insert_stored_iff (htext : Rereads text names path (.insertScopeFontRecord r) io disk)
    (hread : io.readable = true)
    (hread' : io'.readable = true) (hparse : text.parse (disk.getD []) = some j) (hr : Storable r)
    (hfresh : (ConfigFile.perform text names path (.getFontRecordByUrl r.srcPath) io' disk).1 = none)
    (hok : (ConfigFile.perform text names path (.insertScopeFontRecord r) io disk).1 = true)
    (hflush : io.accepted ≤ io.flushed) :
    (∀ p, (ConfigFile.perform text names path (.getFontRecordByUrl p) io'
        (ConfigFile.perform text names path (.insertScopeFontRecord r) io disk).2).1 =
      if p = r.srcPath then some r
      else (ConfigFile.perform text names path (.getFontRecordByUrl p) io' disk).1) ↔
    (arrayItem j fontList).isSome = true := by
  have hedit : ConfigFile.edit text names path (.insertScopeFontRecord r) io disk =
    (ConfigOp.insertScopeFontRecord r).edit names path (some j) := edit_parsed hread hparse
  cases hlist : getObjectItem j fontList with
  | none =>
    have hkeep : ConfigFile.edit text names path (.insertScopeFontRecord r) io disk = .keep false := by
      rw [hedit, ConfigOp.edit, insertScopeFontRecord, hlist]
    rw [ConfigFile.perform, hkeep] at hok
    cases hok
  | some list =>
    have hwrite : ConfigFile.edit text names path (.insertScopeFontRecord r) io disk =
        .write (modifyObjectItem (addItemToArray (constructScopeCJSON r)) fontList j) true false := by
      rw [hedit, ConfigOp.edit, insertScopeFontRecord, hlist]
    have hagain := parse_written htext hwrite (by simp [hok]) hflush
    have harray := arrayItem_inserted r j
    simp only [query_parsed hread' hagain, query_parsed hread' hparse] at hfresh ⊢
    cases hitems : arrayItem j fontList with
    | none =>
      rw [hitems] at harray
      refine iff_of_false (fun h => ?_) (by simp)
      have hlost := h r.srcPath
      rw [if_pos rfl, getFontRecordByUrl, listed, Option.bind_some, harray] at hlost
      cases hlost
    | some items =>
      rw [hitems] at harray
      have hbefore : listed (some j) = items := by simp [listed, hitems]
      exact iff_of_true (getFontRecordByUrl_inserted hr hbefore (by simp [listed, harray]) hfresh) rfl

end document

section scalar

def record : FontRecordInfo where
  fontPath := "/a.ttf".toList
  fullNames := ["A".toList]
  scope := fontScopeApp
  srcPath := "/src/a.ttf".toList
  appIdentifier := "app_5".toList
  bundleName := "bundle".toList

def listIn (list : Json) : Json := .object [(fontList, list)]

def inserted (list : Json) : Json :=
  modifyObjectItem (addItemToArray (constructScopeCJSON record)) fontList (listIn list)

def recordText (indent : Str) : Str :=
  "\x7b\n".toList ++ indent ++ "\t\"fontfullpath\":\t\"/a.ttf\",\n".toList ++
    indent ++ "\t\"fullname\":\t[\"A\"],\n".toList ++ indent ++ "\t\"scope\":\t0,\n".toList ++
    indent ++ "\t\"srcPath\":\t\"/src/a.ttf\",\n".toList ++
    indent ++ "\t\"appIdentifier\":\t\"app_5\",\n".toList ++
    indent ++ "\t\"bundleName\":\t\"bundle\"\n".toList ++ indent ++ "\x7d".toList

def objectBefore : Str := "fontlist\":\x7b\x7d\x7d".toList

def objectAfter : Str :=
  "\t\"fontlist\":\t\x7b\n\t\t\"\":\t".toList ++ recordText "\t\t".toList ++ "\n\t\x7d\n\x7d".toList

def arrayBefore : Str := "fontlist\":[]\x7d".toList

def arrayAfter : Str := "\t\"fontlist\":\t[".toList ++ recordText "\t\t".toList ++ "]\n\x7d".toList

def objectCodec : CJsonText :=
  codec objectBefore objectAfter (listIn (.object [])) (inserted (.object []))

def arrayCodec : CJsonText :=
  codec arrayBefore arrayAfter (listIn (.array [])) (inserted (.array []))

theorem record_storable : Storable record := ⟨by decide, by decide, by decide, by decide⟩

theorem object_insert_lost :
    ¬ ∀ (text : CJsonText) (names : Str → List Str) (path : Str) (io io' : FileIo)
      (disk : Option Bytes) (j : Json) (r : FontRecordInfo),
      Rereads text names path (.insertScopeFontRecord r) io disk → io.readable = true →
      io'.readable = true → text.parse (disk.getD []) = some j → Storable r →
      (ConfigFile.perform text names path (.getFontRecordByUrl r.srcPath) io' disk).1 = none →
      (ConfigFile.perform text names path (.insertScopeFontRecord r) io disk).1 = true →
      io.accepted ≤ io.flushed →
      (ConfigFile.perform text names path (.getFontRecordByUrl r.srcPath) io'
        (ConfigFile.perform text names path (.insertScopeFontRecord r) io disk).2).1 = some r := by
  intro h
  have hedit : (ConfigOp.insertScopeFontRecord record).edit nameless [] (some (listIn (.object []))) =
      .write (inserted (.object [])) true false := rfl
  have hperform : ConfigFile.perform objectCodec nameless [] (.insertScopeFontRecord record)
      (roomFor objectAfter)
      (some (compact objectBefore)) = (true, some (indented objectAfter)) :=
    codec_perform hedit
  have htext : Rereads objectCodec nameless [] (.insertScopeFontRecord record) (roomFor objectAfter)
      (some (compact objectBefore)) := codec_rereads hedit
  have hbefore : objectCodec.parse (compact objectBefore) = some (listIn (.object [])) :=
    codec_parse_before objectBefore objectAfter _ _
  have hafter := parse_written htext ((edit_parsed rfl hbefore).trans hedit) (by simp [hperform]) le_rfl
  have hstored := h objectCodec nameless [] (roomFor objectAfter) (roomFor objectAfter) _ _ record htext
    rfl rfl hbefore record_storable
    ((query_parsed rfl hbefore _).trans rfl) (by rw [hperform]) le_rfl
  rw [query_parsed rfl hafter] at hstored
  cases hstored

theorem array_insert_stored :
    ConfigFile.perform arrayCodec nameless [] (.insertScopeFontRecord record) (roomFor arrayAfter)
        (some (compact arrayBefore)) = (true, some (indented arrayAfter)) ∧
    (ConfigFile.perform arrayCodec nameless [] (.getFontRecordByUrl record.srcPath) (roomFor arrayAfter)
      (some (indented arrayAfter))).1 = some record := by
  have hedit : (ConfigOp.insertScopeFontRecord record).edit nameless [] (some (listIn (.array []))) =
      .write (inserted (.array [])) true false := rfl
  have hperform : ConfigFile.perform arrayCodec nameless [] (.insertScopeFontRecord record)
      (roomFor arrayAfter)
      (some (compact arrayBefore)) = (true, some (indented arrayAfter)) :=
    codec_perform hedit
  have htext : Rereads arrayCodec nameless [] (.insertScopeFontRecord record) (roomFor arrayAfter)
      (some (compact arrayBefore)) := codec_rereads hedit
  have hbefore : arrayCodec.parse (compact arrayBefore) = some (listIn (.array [])) :=
    codec_parse_before arrayBefore arrayAfter _ _
  have hread : (roomFor arrayAfter).readable = true := rfl
  have hstored := (insert_stored_iff htext hread hread hbefore record_storable
    ((query_parsed rfl hbefore _).trans rfl) (by rw [hperform]) le_rfl).mpr rfl record.srcPath
  rw [hperform, if_pos rfl] at hstored
  exact ⟨hperform, hstored⟩

end scalar

end insertion

section upgrade

-- Every value under a key, in the order in which cJSON_GetObjectItem meets them.
def entries (name : Str) : Json → List Json
  | .object fields => (fields.filter fun f => sameKey name f.1).map (·.2)
  | _ => []

theorem getObjectItem_eq_head? (name : Str) (j : Json) :
    getObjectItem j name = (entries name j).head? := by
  cases j with
  | object fields => simp [getObjectItem, entries, List.head?_filter]
  | _ => rfl

theorem stringItem_eq_some {name s : Str} {j : Json} :
    stringItem j name = some s ↔ (entries name j).head? = some (.string s) := by
  rw [stringItem, getObjectItem_eq_head?]
  cases (entries name j).head? with
  | none => simp
  | some v => cases v <;> simp

theorem numberItem_eq_some {name : Str} {q : Rat} {j : Json} :
    numberItem j name = some q ↔ (entries name j).head? = some (.number q) := by
  rw [numberItem, getObjectItem_eq_head?]
  cases (entries name j).head? with
  | none => simp
  | some v => cases v <;> simp

section filter

variable {β : Type} {p : β → Bool} {f : β → β}

theorem filter_modifyFirst (h : ∀ b, p b = true → p (f b) = true) (l : List β) :
    (modifyFirst p f l).filter p = (l.filter p).modifyHead f := by
  induction l with
  | nil => rfl
  | cons b l ih =>
    by_cases hb : p b = true
    · simp [modifyFirst, hb, h b hb]
    · simp [modifyFirst, hb, ih]

theorem filter_modifyFirst_of_disjoint {q : β → Bool} (h : ∀ b, p b = true → q b = false)
    (h' : ∀ b, p b = true → q (f b) = false) (l : List β) :
    (modifyFirst p f l).filter q = l.filter q := by
  induction l with
  | nil => rfl
  | cons b l ih =>
    by_cases hb : p b = true
    · simp [modifyFirst, hb, h b hb, h' b hb]
    · simp [modifyFirst, hb, List.filter_cons, ih]

end filter

theorem entries_modifyObjectItem_ne (f : Json → Json) {name name' : Str} (h : sameKey name name' = false)
    (j : Json) : entries name' (modifyObjectItem f name j) = entries name' j := by
  cases j with
  | object fields =>
    have hfields := filter_modifyFirst_of_disjoint (p := fun g : Str × Json => sameKey name g.1)
      (q := fun g => sameKey name' g.1) (f := fun g => (g.1, f g.2))
      (fun _ hb => sameKey_ne h hb) (fun _ hb => sameKey_ne h hb) fields
    simp only [entries, modifyObjectItem, hfields]
  | _ => rfl

theorem entries_replaceItemInObject (name : Str) (item j : Json) :
    entries name (replaceItemInObject name item j) = (entries name j).modifyHead fun _ => item := by
  cases j with
  | object fields =>
    have hfields := filter_modifyFirst (p := fun f : Str × Json => sameKey name f.1)
      (f := fun _ => (name, item)) (fun _ _ => by simp [sameKey]) fields
    simp only [entries, replaceItemInObject, hfields]
    cases fields.filter fun f => sameKey name f.1 <;> rfl
  | _ => rfl

theorem entries_addItemToObject (name : Str) (item : Json) (fields : List (Str × Json)) :
    entries name (addItemToObject name item (.object fields)) =
      entries name (.object fields) ++ [item] := by
  simp [entries, addItemToObject, List.filter_append, sameKey]

variable {fields : List (Str × Json)}

theorem entries_refreshFullNames (names : Str → List Str) (path : Str) (j : Json) :
    entries fontVersion (refreshFullNames names path j) = entries fontVersion j :=
  entries_modifyObjectItem_ne _ (by decide : sameKey fontList fontVersion = false) j

theorem refreshFullNames_object (names : Str → List Str) (path : Str) (fields : List (Str × Json)) :
    ∃ fields', refreshFullNames names path (.object fields) = .object fields' ∧
      entries fontVersion (.object fields') = entries fontVersion (.object fields) :=
  ⟨_, rfl, entries_refreshFullNames names path (.object fields)⟩

def latest : Json := .string fontConfigVersion7

def Upgradable (v : Json) : Prop := v = latest ∨ ∃ q, v = .number q ∧ valueint q = version

structure Converged (text : CJsonText) (names : Str → List Str) (path : Str) (disk : Option Bytes) :
    Prop where
  single : ∃ j, text.parse (disk.getD []) = some j ∧ entries fontVersion j = [latest]
  stable : ∀ io : FileIo, io.readable = true →
    ConfigFile.perform text names path .checkAndUpdateFontRecord io disk = (true, disk)

theorem keep_of_entries {rest : List Json} (h : entries fontVersion j = latest :: rest) :
    checkAndUpdateFontRecord names path (some j) = .keep true := by
  have hstring : stringItem j fontVersion = some fontConfigVersion7 :=
    stringItem_eq_some.mpr (by rw [h]; rfl)
  rw [checkAndUpdateFontRecord, if_pos hstring]

theorem converged_iff (hparse : text.parse (disk.getD []) = some j) :
    Converged text names path disk ↔ entries fontVersion j = [latest] := by
  constructor
  · rintro ⟨⟨j', hj, hsingle⟩, -⟩
    obtain rfl : j = j' := Option.some.inj (hparse.symm.trans hj)
    exact hsingle
  · refine fun hsingle => ⟨⟨j, hparse, hsingle⟩, fun io hread => ?_⟩
    rw [ConfigFile.perform, edit_parsed hread hparse]
    exact congrArg (finish text io disk) (keep_of_entries hsingle)

-- The number 1 is replaced where it stands; any other value stays, and the version goes after it.
theorem upgrade_written (hlatest : stringItem (.object fields) fontVersion ≠ some fontConfigVersion7) :
    ∃ j', checkAndUpdateFontRecord names path (some (.object fields)) = .write j' true false ∧
      entries fontVersion j' =
        if (numberItem (.object fields) fontVersion).map valueint = some version
        then (entries fontVersion (.object fields)).modifyHead fun _ => latest
        else entries fontVersion (.object fields) ++ [latest] := by
  obtain ⟨fields', hrefresh, hsame⟩ := refreshFullNames_object names path fields
  rw [checkAndUpdateFontRecord, if_neg hlatest, hrefresh]
  by_cases hone : (numberItem (.object fields) fontVersion).map valueint = some version
  · refine ⟨_, if_pos hone, ?_⟩
    rw [entries_replaceItemInObject, hsame, if_pos hone]
    rfl
  · refine ⟨_, if_neg hone, ?_⟩
    rw [safeAddStringToObject, entries_addItemToObject, hsame, if_neg hone]
    rfl

theorem versionOne_iff {v : Json} {rest : List Json} (h : entries fontVersion j = v :: rest) :
    (numberItem j fontVersion).map valueint = some version ↔
      ∃ q, v = .number q ∧ valueint q = version := by
  simp only [Option.map_eq_some_iff, numberItem_eq_some, h, List.head?_cons, Option.some.injEq]

theorem upgrade_converges_iff (htext : Rereads text names path .checkAndUpdateFontRecord io disk)
    (hread : io.readable = true) (hparse : text.parse (disk.getD []) = some (.object fields))
    (hok : (ConfigFile.perform text names path .checkAndUpdateFontRecord io disk).1 = true)
    (hflush : io.accepted ≤ io.flushed) :
    Converged text names path (ConfigFile.perform text names path .checkAndUpdateFontRecord io disk).2 ↔
      entries fontVersion (.object fields) = [] ∨
        ∃ v, entries fontVersion (.object fields) = [v] ∧ Upgradable v := by
  have hedit : ConfigFile.edit text names path .checkAndUpdateFontRecord io disk =
    (ConfigOp.checkAndUpdateFontRecord).edit names path (some (.object fields)) :=
    edit_parsed hread hparse
  by_cases hlatest : stringItem (.object fields) fontVersion = some fontConfigVersion7
  · have hkeep : ConfigFile.edit text names path .checkAndUpdateFontRecord io disk = .keep true := by
      rw [hedit, ConfigOp.edit, checkAndUpdateFontRecord, if_pos hlatest]
    rw [Atomicity.perform_of_keep hkeep, converged_iff hparse]
    obtain ⟨rest, hentries⟩ := List.head?_eq_some_iff.mp (stringItem_eq_some.mp hlatest)
    rw [hentries]
    simp [Upgradable, latest]
  · obtain ⟨j', hwrite, hentries⟩ := @upgrade_written names path fields hlatest
    have hagain := parse_written htext (hedit.trans hwrite) (by simp [hok]) hflush
    rw [converged_iff hagain, hentries]
    cases hversions : entries fontVersion (.object fields) with
    | nil =>
      have hnone : numberItem (.object fields) fontVersion = none := by
        rw [numberItem, getObjectItem_eq_head?, hversions]
        rfl
      simp [hnone]
    | cons v rest =>
      have hv : v ≠ latest := by
        rintro rfl
        exact hlatest (stringItem_eq_some.mpr (by rw [hversions]; rfl))
      by_cases hone : (numberItem (.object fields) fontVersion).map valueint = some version
      · have hnumber := (versionOne_iff hversions).mp hone
        rw [if_pos hone]
        simp [Upgradable, hnumber]
      · have hnumber := fun h => hone ((versionOne_iff hversions).mpr h)
        rw [if_neg hone]
        simp [Upgradable, hv]
        exact fun _ q hq hint => hnumber ⟨q, hq, hint⟩

def versioned (v : Rat) : List (Str × Json) := [(fontList, .array []), (fontVersion, .number v)]

def numberedText (v : Str) : Str := "fontlist\":[],\"version\":".toList ++ v ++ "\x7d".toList

def appendedText : Str :=
  "\t\"fontlist\":\t[],\n\t\"version\":\t2,\n\t\"version\":\t\"7.0\"\n\x7d".toList

def replacedText : Str := "\t\"fontlist\":\t[],\n\t\"version\":\t\"7.0\"\n\x7d".toList

def appendedCodec : CJsonText :=
  codec (numberedText ['2']) appendedText (.object (versioned 2))
    (.object (versioned 2 ++ [(fontVersion, latest)]))

def replacedCodec : CJsonText :=
  codec (numberedText ['1']) replacedText (.object (versioned 1))
    (.object [(fontList, .array []), (fontVersion, latest)])

theorem other_version_kept :
    ¬ ∀ (text : CJsonText) (names : Str → List Str) (path : Str) (io : FileIo) (disk : Option Bytes)
      (fields : List (Str × Json)), Rereads text names path .checkAndUpdateFontRecord io disk →
      io.readable = true → text.parse (disk.getD []) = some (.object fields) →
      (ConfigFile.perform text names path .checkAndUpdateFontRecord io disk).1 = true →
      io.accepted ≤ io.flushed →
      Converged text names path
        (ConfigFile.perform text names path .checkAndUpdateFontRecord io disk).2 := by
  intro h
  have hedit : (ConfigOp.checkAndUpdateFontRecord).edit nameless [] (some (.object (versioned 2))) =
      .write (.object (versioned 2 ++ [(fontVersion, latest)])) true false := rfl
  have hperform : ConfigFile.perform appendedCodec nameless [] .checkAndUpdateFontRecord
      (roomFor appendedText)
      (some (compact (numberedText ['2']))) = (true, some (indented appendedText)) :=
    codec_perform hedit
  have htext : Rereads appendedCodec nameless [] .checkAndUpdateFontRecord (roomFor appendedText)
      (some (compact (numberedText ['2']))) := codec_rereads hedit
  have hparse : appendedCodec.parse (compact (numberedText ['2'])) = some (.object (versioned 2)) :=
    codec_parse_before (numberedText ['2']) appendedText _ _
  have hagain := parse_written htext ((edit_parsed rfl hparse).trans hedit) (by simp [hperform]) le_rfl
  have hconverged := h appendedCodec nameless [] (roomFor appendedText) _ (versioned 2) htext rfl hparse
    (by rw [hperform]) le_rfl
  obtain ⟨j, hj, hsingle⟩ := hconverged.single
  obtain rfl := Option.some.inj (hagain.symm.trans hj)
  exact absurd (congrArg List.length hsingle) (by decide)

theorem number_one_replaced :
    Converged replacedCodec nameless [] (some (indented replacedText)) := by
  have hedit : (ConfigOp.checkAndUpdateFontRecord).edit nameless [] (some (.object (versioned 1))) =
      .write (.object [(fontList, .array []), (fontVersion, latest)]) true false := rfl
  have hperform : ConfigFile.perform replacedCodec nameless [] .checkAndUpdateFontRecord
      (roomFor replacedText)
      (some (compact (numberedText ['1']))) = (true, some (indented replacedText)) :=
    codec_perform hedit
  have htext : Rereads replacedCodec nameless [] .checkAndUpdateFontRecord (roomFor replacedText)
      (some (compact (numberedText ['1']))) := codec_rereads hedit
  have hparse : replacedCodec.parse (compact (numberedText ['1'])) = some (.object (versioned 1)) :=
    codec_parse_before (numberedText ['1']) replacedText _ _
  have hconverged := (upgrade_converges_iff htext rfl hparse (by rw [hperform]) le_rfl).mpr
    (.inr ⟨.number 1, rfl, .inr ⟨1, rfl, by decide⟩⟩)
  rwa [hperform] at hconverged

end upgrade

end Reread
