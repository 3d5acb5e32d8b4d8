import FontManager.Concurrent.FontCount
import FontManager.Sequential.RegistryConsistency
import FontManager.Source.Server

open FontDefine FontManagerUtils FontConfig FontLocation CJson Interaction Program

namespace ScopeRegistration

abbrev ServerSystem := System sig Request Int World

abbrev ServerStep := Event Request Io

def isApp (k : RecordKey) : Bool := k.scope.any fun q => valueint q = fontScopeApp

def AppFontsRegistered (w : World) : Prop :=
  ∀ u, ∀ k ∈ listedKeys (w.config u), isApp k = true →
    ∃ t, k.appIdentifier = some (makeAppIdentifier fontScopeApp t) ∧
      w.registry.isClientRegistered t = true

def clash (k k' : RecordKey) : Bool :=
  (isApp k || isApp k') && k.srcPath.isSome && k.srcPath = k'.srcPath

def ownerRegistered (r : FontClientRegistry) (id : Str) (u : Int) : Bool :=
  r.clients.any fun c => id = makeAppIdentifier fontScopeApp c.1 &&
    (r.info c.1).any fun info => info.userId = u

def orderlyInsert (u : Int) (w : World) (record : FontRecordInfo) : Bool :=
  ((listedKeys (w.config u)).all fun k => !clash k (keyOf (constructScopeCJSON record))) &&
    (!isApp (keyOf (constructScopeCJSON record)) ||
      (keyOf (constructScopeCJSON record)).srcPath.isSome &&
        ownerRegistered w.registry record.appIdentifier u)

def orderly (s : ServerSystem) : ServerStep → Bool
  | .spawn _ => true
  | .act i io =>
    io.completes &&
      match s.operation (.act i io : ServerStep) with
      | some (.config u (.insertScopeFontRecord record)) => orderlyInsert u s.world record
      | some (.config _ (.getFontRecordsByAppId _)) => io.ok
      | some (.config _ (.deleteScopeFontRecordByUrl _)) => io.ok
      | _ => true

section keys

theorem keyOf_item (r : Record) : keyOf r.item =
    ⟨some r.fontPath, r.scope.map fun n : Int => (n : Rat), r.srcPath, r.appIdentifier⟩ := by
  rw [keyOf, r.stringItem_fontPath, r.numberItem_fontScope, r.stringItem_fontSrcPath,
    r.stringItem_fontAppIdentifier]

theorem keyOf_construct (path : Str) (names : List Str) :
    keyOf (constructCJSON path names) = ⟨some (Text.cStr path), none, none, none⟩ := by
  rw [Record.constructCJSON_eq, keyOf_item]
  rfl

theorem keyOf_constructScope (record : FontRecordInfo) : keyOf (constructScopeCJSON record) =
    ⟨some (Text.cStr record.fontPath),
      (if record.scope ≥ 0 then some record.scope else none).map fun n : Int => (n : Rat),
      Record.optional record.srcPath, Record.optional record.appIdentifier⟩ := by
  rw [Record.constructScopeCJSON_eq, keyOf_item]
  rfl

theorem appIdentifier_of_owner {record : FontRecordInfo} {t : Int}
    (h : record.appIdentifier = makeAppIdentifier fontScopeApp t) :
    (keyOf (constructScopeCJSON record)).appIdentifier =
      some (makeAppIdentifier fontScopeApp t) := by
  rw [keyOf_constructScope]
  simp only [h, Record.optional]
  rw [if_pos (makeAppIdentifier_plain fontScopeApp t).nonempty,
    Text.cStr_of_nulFree (makeAppIdentifier_nulFree fontScopeApp t)]

def Distinct (keys : List RecordKey) : Prop := keys.Pairwise fun k k' => clash k k' = false

theorem distinct_insertKey {path : Str} {names : List Str} {keys : List RecordKey}
    (h : Distinct keys) : Distinct (ConfigOp.insertKey path names keys) := by
  rw [ConfigOp.insertKey]
  split
  · exact h
  · refine List.pairwise_append.mpr ⟨h, List.pairwise_singleton _ _, fun k _ k' hk' => ?_⟩
    obtain rfl := List.mem_singleton.mp hk'
    rw [keyOf_construct]
    cases hs : k.srcPath <;> simp [clash, hs]

theorem mem_insertKey {path : Str} {names : List Str} {keys : List RecordKey} {k : RecordKey}
    (h : k ∈ ConfigOp.insertKey path names keys) : k ∈ keys ∨ isApp k = false := by
  rw [ConfigOp.insertKey] at h
  split at h
  · exact Or.inl h
  · rcases List.mem_append.mp h with h | h
    · exact Or.inl h
    · obtain rfl := List.mem_singleton.mp h
      rw [keyOf_construct]
      exact Or.inr rfl

theorem distinct_expected {op : ConfigOp} {keys : List RecordKey} (h : Distinct keys)
    (hscope : ∀ record, op = .insertScopeFontRecord record →
      ∀ k ∈ keys, clash k (keyOf (constructScopeCJSON record)) = false) :
    Distinct (op.expected keys) := by
  cases op with
  | insertFontRecord path names => exact distinct_insertKey h
  | insertFontRecordIfUnderLimit path names maxCount => exact distinct_insertKey h
  | insertScopeFontRecord record =>
    refine List.pairwise_append.mpr ⟨h, List.pairwise_singleton _ _, fun k hk k' hk' => ?_⟩
    exact List.mem_singleton.mp hk' ▸ hscope record rfl k hk
  | deleteFontRecord path => exact h.sublist List.eraseP_sublist
  | deleteScopeFontRecordByUrl srcPath => exact h.sublist List.eraseP_sublist
  | deleteScopeFontRecordByAppId id => exact h.sublist List.filter_sublist
  | _ => exact h

theorem mem_expected {op : ConfigOp} {keys : List RecordKey} {k : RecordKey}
    (h : k ∈ op.expected keys) : k ∈ keys ∨ isApp k = false ∨
      ∃ record, op = .insertScopeFontRecord record ∧ k = keyOf (constructScopeCJSON record) := by
  cases op with
  | insertFontRecord path names => exact (mem_insertKey h).imp_right Or.inl
  | insertFontRecordIfUnderLimit path names maxCount => exact (mem_insertKey h).imp_right Or.inl
  | insertScopeFontRecord record =>
    rcases List.mem_append.mp h with h | h
    · exact Or.inl h
    · exact Or.inr (Or.inr ⟨record, rfl, List.mem_singleton.mp h⟩)
  | deleteFontRecord path => exact Or.inl (List.eraseP_sublist.subset h)
  | deleteScopeFontRecordByUrl srcPath => exact Or.inl (List.eraseP_sublist.subset h)
  | deleteScopeFontRecordByAppId id => exact Or.inl (List.filter_sublist.subset h)
  | _ => exact Or.inl h

theorem not_mem_eraseP {keys : List RecordKey} {k : RecordKey} {s : Str} (h : Distinct keys)
    (happ : isApp k = true) (hs : k.srcPath = some s) :
    k ∉ keys.eraseP fun k => k.srcPath == some s := by
  induction keys with
  | nil => simp
  | cons a keys ih =>
    obtain ⟨hhead, htail⟩ := List.pairwise_cons.mp h
    by_cases ha : a.srcPath = some s
    · rw [List.eraseP_cons_of_pos (by simp [ha])]
      intro hk
      have := hhead k hk
      simp [clash, happ, ha, hs] at this
    · rw [List.eraseP_cons_of_neg (by simp [ha])]
      intro hk
      rcases List.mem_cons.mp hk with rfl | hk
      · exact ha hs
      · exact ih htail hk

end keys

section world

variable {u : Int} {w : World} {io : Io}

theorem keys_exec (u : Int) (w : World) (o : Op) (hio : io.write = .complete) :
    listedKeys ((w.exec o io).2.config u) = listedKeys (w.config u) ∨
      listedKeys ((w.exec o io).2.config u) = [] ∨
      ∃ op, o = .config u op ∧
        listedKeys ((w.exec o io).2.config u) = op.expected (listedKeys (w.config u)) := by
  cases o with
  | config v op =>
    by_cases hu : v = u
    · subst hu
      have h := Mutation.listedKeys_execConfig w v op hio
      cases hb : op.succeeded (w.execConfig v op io).1 && arrayList (w.config v) with
      | true => exact Or.inr (Or.inr ⟨op, rfl, by rw [hb] at h; exact h⟩)
      | false => exact Or.inl (by rw [hb] at h; exact h)
    · have hne : ¬ configLoc u = configLoc v := fun h => hu (configLoc_injective h).symm
      exact Or.inl (congrArg listedKeys (World.config_frame (w.execConfig_frame v op io) hne))
  | file op =>
    rcases FontCount.sheds_execFile u w io op with h | h
    · exact Or.inl (congrArg (List.map keyOf) h)
    · exact Or.inr (Or.inl (congrArg (List.map keyOf) h))
  | registry op => cases op <;> exact Or.inl rfl
  | _ => exact Or.inl rfl

theorem keys_deleteByUrl (s : Str) (hread : io.ok = true) (hio : io.write = .complete) :
    listedKeys ((w.execConfig u (.deleteScopeFontRecordByUrl s) io).2.config u) =
      (listedKeys (w.config u)).eraseP fun k => k.srcPath == some s := by
  rw [World.execConfig_readable hread, hio]
  cases hedit : (ConfigOp.deleteScopeFontRecordByUrl s).edit io.fullNames (configPath u)
      (w.config u) with
  | write json done failed =>
    simp only [World.applyEdit, World.writeFile, World.config_configPath,
      (Mutation.of_edit hedit).listedKeys_eq]
    cases harray : arrayList (w.config u) with
    | true => rfl
    | false =>
      rw [listedKeys, Mutation.listed_other harray]
      rfl
  | keep reply =>
    show listedKeys (w.config u) = _
    refine (List.eraseP_of_forall_not fun k hk hsk => ?_).symm
    obtain ⟨item, hitem, rfl⟩ := List.mem_map.mp hk
    have harray := Mutation.arrayList_of_listed (List.ne_nil_of_mem hitem)
    cases hconfig : w.config u with
    | none => simp [hconfig, arrayList] at harray
    | some j =>
      obtain ⟨items, hitems⟩ := Option.isSome_iff_exists.mp (hconfig ▸ harray)
      simp only [Option.bind_some] at hitems
      simp only [hconfig, listed, Option.bind_some, hitems, Option.getD_some] at hitem
      simp only [ConfigOp.edit, deleteScopeFontRecordByUrl, deleteFirst, hconfig, hitems,
        Option.bind_some] at hedit
      split at hedit
      · rename_i hnone
        have hno : atUrl s item = false := List.findIdx?_eq_none_iff.mp hnone item hitem
        exact absurd hsk (Bool.eq_false_iff.mp hno)
      · cases hedit

theorem mem_getFontRecordsByAppId {k : RecordKey} {id s : Str}
    (hk : k ∈ listedKeys (w.config u)) (hid : k.appIdentifier = some id)
    (hs : k.srcPath = some s) :
    ∃ info ∈ getFontRecordsByAppId id (w.config u), info.srcPath = s := by
  obtain ⟨item, hitem, rfl⟩ := List.mem_map.mp hk
  refine ⟨parseScopeRecord item, List.mem_map_of_mem (List.mem_filter.mpr ⟨hitem, ?_⟩), ?_⟩
  · exact beq_iff_eq.mpr hid
  · have hsrc : stringItem item fontSrcPath = some s := hs
    simp [parseScopeRecord, hsrc]

end world

section registry

def Registered (r : FontClientRegistry) (t u : Int) : Prop :=
  ∃ info, r.info t = some info ∧ info.userId = u

def IdsMatch (r : FontClientRegistry) : Prop :=
  ∀ t info, r.info t = some info → info.appIdentifier = makeAppIdentifier fontScopeApp t

variable {r : FontClientRegistry}

theorem registered_of_owner {id : Str} {u : Int} (h : ownerRegistered r id u = true) :
    ∃ t, id = makeAppIdentifier fontScopeApp t ∧ Registered r t u := by
  obtain ⟨c, -, hc⟩ := List.any_eq_true.mp h
  obtain ⟨hid, hinfo⟩ := Bool.and_eq_true_iff.mp hc
  cases hr : r.info c.1 with
  | none => simp [hr] at hinfo
  | some info => exact ⟨c.1, of_decide_eq_true hid, info, hr, by simpa [hr] using hinfo⟩

theorem IdsMatch.registerClient (h : IdsMatch r) (hasBinder linked : Bool) (bundleName : Str)
    (userId tokenId : Int) :
    IdsMatch (r.registerClient hasBinder linked bundleName userId tokenId).2 := by
  rcases FontClientRegistry.registerClient_cases (r := r) hasBinder linked bundleName userId tokenId
    with ⟨-, heq⟩ | ⟨-, -, heq⟩
  · rwa [heq]
  · intro t info ht
    rw [heq, FontClientRegistry.enrol, FontClientRegistry.info_cons] at ht
    split at ht
    · rename_i hid
      rw [← Option.some.inj ht, hid]
      rfl
    · exact h t info ht

theorem Registered.registerClient {t u : Int} (h : Registered r t u) (hasBinder linked : Bool)
    (bundleName : Str) (userId tokenId : Int) :
    Registered (r.registerClient hasBinder linked bundleName userId tokenId).2 t u := by
  rcases FontClientRegistry.registerClient_cases (r := r) hasBinder linked bundleName userId tokenId
    with ⟨-, heq⟩ | ⟨hnone, -, heq⟩
  · rwa [heq]
  · obtain ⟨info, hinfo, hu⟩ := h
    refine ⟨info, ?_, hu⟩
    rw [heq, FontClientRegistry.enrol, FontClientRegistry.info_cons,
      if_neg (by rintro rfl; rw [hnone] at hinfo; cases hinfo), hinfo]

theorem IdsMatch.eraseClient (h : IdsMatch r) (tokenId : Int) :
    IdsMatch (r.eraseClient tokenId).2 := by
  intro t info ht
  rw [FontClientRegistry.info_eraseClient] at ht
  split at ht
  · cases ht
  · exact h t info ht

theorem Registered.eraseClient {t u : Int} (h : Registered r t u) {tokenId : Int}
    (hne : t ≠ tokenId) : Registered (r.eraseClient tokenId).2 t u := by
  obtain ⟨info, hinfo, hu⟩ := h
  exact ⟨info, by rw [FontClientRegistry.info_eraseClient, if_neg hne, hinfo], hu⟩

end registry

section threads

def quiet : Op → Prop
  | .registry (.eraseClient _) => False
  | .config u (.insertScopeFontRecord _) => 0 ≤ u
  | _ => True

abbrev Quiet {α : Type} (p : FontTask α) : Prop := always (P := sig) (fun _ _ => True) quiet p

def afterErase (missing : FontErrorCode) : Option (Str × Int) → FontTask Int
  | none => .done missing.value
  | some client => FontClientRegistry.cleanup client >>= fun _ => .done FontErrorCode.ok.value

def Shaped (p : FontTask Int) : Prop :=
  Quiet p ∨ ∃ t missing, p = .call (.registry (.eraseClient t)) (afterErase missing)

theorem permits (u : Int) : Permits (fun _ _ => True) quiet u where
  file _ := trivial
  config op hop := by cases op <;> trivial
  limit := trivial
  publish _ := trivial

theorem routine (u : Int) : RoutinePermits (fun _ _ => True) quiet u := (permits u).toRoutinePermits

theorem Quiet.value {p : FontTask FontErrorCode} (h : Quiet p) : Quiet (FontManagerServer.value p) :=
  always_bind h fun _ => always_pure _

theorem quiet_installRegistered {caller : Caller} (hu : 0 ≤ caller.userId) (env : Env) (fd : Fd)
    (scope : Int) (srcPath : Str) :
    Quiet (FontManagerServer.installRegistered caller env fd scope srcPath) := by
  unfold FontManagerServer.installRegistered
  split
  · exact always_pure _
  · exact (permits caller.userId).installScopeFont (fun _ _ => hu) env _ rfl

theorem quiet_installScopeFontInner (caller : Caller) (env : Env) (fd : Fd) (scope : Int)
    (srcPath : Str) :
    Quiet (FontManagerServer.installScopeFontInner caller env fd scope srcPath) := by
  unfold FontManagerServer.installScopeFontInner
  split
  · exact always_pure _
  · split
    · exact always_pure _
    · split
      · exact always_pure _
      · rename_i hu
        split
        · refine always_bind (always_perform trivial) fun b => ?_
          cases b with
          | false => exact always_pure _
          | true => exact quiet_installRegistered (Int.not_lt.mp hu) env fd scope srcPath
        · exact quiet_installRegistered (Int.not_lt.mp hu) env fd scope srcPath

theorem unregisterClient_eq (t : Int) :
    FontManagerServer.value (FontClientRegistry.unregisterClient t) =
      .call (.registry (.eraseClient t)) (afterErase .scopeFontNotRegistered) := by
  refine congrArg (Program.call (P := sig) (.registry (.eraseClient t))) (funext fun reply => ?_)
  cases reply with
  | none => rfl
  | some client =>
    exact Program.bind_assoc (FontClientRegistry.cleanup client) (fun _ => pure FontErrorCode.ok) _

theorem onClientDied_eq (t : Int) :
    FontManagerServer.value (FontClientRegistry.onClientDied t) =
      .call (.registry (.eraseClient t)) (afterErase .ok) := by
  refine congrArg (Program.call (P := sig) (.registry (.eraseClient t))) (funext fun reply => ?_)
  cases reply with
  | none => rfl
  | some client =>
    exact Program.bind_assoc (FontClientRegistry.cleanup client) (fun _ => pure FontErrorCode.ok) _

theorem quiet_afterErase (missing : FontErrorCode) (reply : Option (Str × Int)) :
    Quiet (afterErase missing reply) := by
  cases reply with
  | none => exact always_pure _
  | some client => exact always_bind (RoutinePermits.cleanup routine client) fun _ => always_pure _

theorem quiet_getFontScope (srcPath bundleName : Str) (t u : Int) :
    Quiet (FontManager.getFontScope srcPath bundleName t u) := by
  refine always_bind ((permits u).configTask _ rfl) fun found => ?_
  cases found with
  | none => exact always_pure _
  | some record =>
    dsimp only
    split <;> exact always_pure _

theorem shaped_program (q : Request) : Shaped (FontManagerServer.program q) := by
  cases q with
  | installFont caller env fd =>
    refine Or.inl (Quiet.value ?_)
    unfold FontManagerServer.installFontInner
    split
    · exact always_pure _
    · split
      · exact always_pure _
      · exact (permits _).installFont (fun _ => trivial) (fun _ _ _ _ _ => trivial) env fd
  | uninstallFont caller name =>
    refine Or.inl (Quiet.value ?_)
    unfold FontManagerServer.uninstallFontInner
    split
    · exact always_pure _
    · split
      · exact always_pure _
      · exact (permits _).uninstallFont (fun _ => trivial) name
  | installFontWithUserId caller env fd u =>
    refine Or.inl (Quiet.value ?_)
    unfold FontManagerServer.installFontWithUserId
    split
    · exact always_pure _
    · split
      · exact always_pure _
      · exact (permits _).installFont (fun _ => trivial) (fun _ _ _ _ _ => trivial) env fd
  | uninstallFontWithUserId caller name u =>
    refine Or.inl (Quiet.value ?_)
    unfold FontManagerServer.uninstallFontWithUserId
    split
    · exact always_pure _
    · split
      · exact always_pure _
      · exact (permits _).uninstallFont (fun _ => trivial) name
  | onFontObserver caller hasBinder =>
    refine Or.inl (Quiet.value ?_)
    unfold FontManagerServer.onFontObserverInner
    split
    · exact always_pure _
    · exact always_perform trivial
  | offFontObserver caller =>
    cases hc : caller.updateScopeFont with
    | false =>
      refine Or.inl (Quiet.value ?_)
      rw [FontManagerServer.offFontObserverInner, hc]
      exact always_pure _
    | true =>
      refine Or.inr ⟨caller.tokenId, .scopeFontNotRegistered, ?_⟩
      rw [← unregisterClient_eq, FontManagerServer.program, FontManagerServer.offFontObserverInner,
        hc]
      rfl
  | installScopeFont caller env fd scope srcPath =>
    exact Or.inl (quiet_installScopeFontInner caller env fd scope srcPath).value
  | uninstallScopeFont caller srcPath =>
    refine Or.inl (Quiet.value ?_)
    unfold FontManagerServer.uninstallScopeFontInner
    split
    · exact always_pure _
    · split
      · exact always_pure _
      · split
        · exact always_pure _
        · exact (permits _).uninstallScopeFont _ _ _
  | getFontScope caller srcPath =>
    refine Or.inl ?_
    show Quiet (FontManagerServer.getFontScopeInner caller srcPath)
    unfold FontManagerServer.getFontScopeInner
    split
    · exact always_pure _
    · split
      · exact always_pure _
      · split
        · exact always_pure _
        · exact quiet_getFontScope _ _ _ _
  | clientDied t => exact Or.inr ⟨t, .ok, onClientDied_eq t⟩
  | cleanupAllScopeFontsOnBoot =>
    exact Or.inl (Quiet.value (RoutinePermits.cleanupAllScopeFontsOnBoot routine trivial))
  | cleanupUserScopeFonts u =>
    exact Or.inl (Quiet.value (RoutinePermits.cleanupUserScopeFonts routine u))
  | cleanupAppScopeFontsOnStart =>
    exact Or.inl (Quiet.value (RoutinePermits.cleanupAppScopeFontsOnStart routine trivial))

end threads

section removal

def replies (u t : Int) (url : Str) : (o : Op) → o.Reply → Prop
  | .config v (.getFontRecordsByAppId id), r =>
    v = u → id = makeAppIdentifier fontScopeApp t → ∃ info ∈ r, info.srcPath = url
  | _, _ => True

def removes (u : Int) (url : Str) (o : Op) : Prop :=
  o = .config u (.deleteScopeFontRecordByUrl url)

abbrev Removes {α : Type} (u t : Int) (url : Str) (p : FontTask α) : Prop :=
  eventually (P := sig) (replies u t url) (removes u url) p

theorem removes_sweep {u t : Int} {url : Str} {infos : List FontRecordInfo}
    (h : ∃ info ∈ infos, info.srcPath = url) : Removes u t url (FontManager.sweepRecords u infos) := by
  induction infos with
  | nil => obtain ⟨info, hinfo, -⟩ := h; cases hinfo
  | cons info rest ih =>
    refine eventually_bind_right fun path => eventually_bind_right fun removed => ?_
    by_cases hurl : info.srcPath = url
    · exact Or.inl (by rw [removes, hurl])
    · refine Or.inr fun r _ => ih ?_
      obtain ⟨info', hmem, heq⟩ := h
      rcases List.mem_cons.mp hmem with rfl | hmem
      · exact absurd heq hurl
      · exact ⟨info', hmem, heq⟩

theorem removes_cleanup {u t : Int} {url : Str} (hu : 0 ≤ u) :
    Removes u t url (FontClientRegistry.cleanup (makeAppIdentifier fontScopeApp t, u)) := by
  have hne := (makeAppIdentifier_plain fontScopeApp t).nonempty
  unfold FontClientRegistry.cleanup
  rw [if_pos ⟨hne, hu⟩]
  refine eventually_bind_left ?_
  unfold FontManager.cleanupAppScopeFonts
  exact eventually_perform_bind fun records hrecords =>
    eventually_bind_left (removes_sweep (hrecords rfl rfl))

end removal

section step

def Sweeping (s : ServerSystem) (u t : Int) (url : Str) : Prop :=
  ∃ thread ∈ s.threads, Removes u t url thread.program

structure Owned (s : ServerSystem) (u : Int) (k : RecordKey) (t : Int) (url : Str) : Prop where
  user : 0 ≤ u
  srcPath : k.srcPath = some url
  appIdentifier : k.appIdentifier = some (makeAppIdentifier fontScopeApp t)
  kept : Registered s.world.registry t u ∨ Sweeping s u t url

structure Held (s : ServerSystem) : Prop where
  ids : IdsMatch s.world.registry
  shaped : ∀ thread ∈ s.threads, Shaped thread.program
  distinct : ∀ u, Distinct (listedKeys (s.world.config u))
  owned : ∀ u, ∀ k ∈ listedKeys (s.world.config u), isApp k = true → ∃ t url, Owned s u k t url

variable {s : ServerSystem} {u t : Int} {url : Str} {w : World} {o : Op}

theorem ids_exec (h : IdsMatch w.registry) (o : Op) (io : Io) :
    IdsMatch (w.exec o io).2.registry := by
  cases o with
  | registry op =>
    cases op with
    | registerClient hasBinder bundleName userId tokenId => exact h.registerClient _ _ _ _ _
    | eraseClient tokenId => exact h.eraseClient tokenId
    | _ => exact h
  | _ => rwa [World.exec_registry io (by simp)]

theorem registered_exec (h : Registered w.registry t u) (io : Io)
    (hne : o ≠ .registry (.eraseClient t)) : Registered (w.exec o io).2.registry t u := by
  cases o with
  | registry op =>
    cases op with
    | registerClient hasBinder bundleName userId tokenId => exact h.registerClient _ _ _ _ _
    | eraseClient tokenId => exact h.eraseClient fun ht => hne (by rw [ht])
    | _ => exact h
  | _ => rwa [World.exec_registry io (by simp)]

theorem distinct_exec (h : ∀ v, Distinct (listedKeys (w.config v))) {io : Io}
    (hio : io.write = .complete)
    (hscope : ∀ v record, o = .config v (.insertScopeFontRecord record) →
      ∀ k ∈ listedKeys (w.config v), clash k (keyOf (constructScopeCJSON record)) = false)
    (v : Int) : Distinct (listedKeys ((w.exec o io).2.config v)) := by
  rcases keys_exec v w o hio with heq | heq | ⟨op, rfl, heq⟩
  · rw [heq]
    exact h v
  · rw [heq]
    exact List.Pairwise.nil
  · rw [heq]
    exact distinct_expected (h v) fun record hrecord => hscope v record (by rw [hrecord])

theorem shaped_next {k : o.Reply → FontTask Int} (h : Shaped (.call o k)) (r : o.Reply) :
    Shaped (k r) := by
  rcases h with h | ⟨t, missing, heq⟩
  · exact Or.inl (h.2 r trivial)
  · cases heq
    exact Or.inl (quiet_afterErase missing r)

theorem user_of_insert {record : FontRecordInfo} {k : Bool → FontTask Int}
    (h : Shaped (.call (.config u (.insertScopeFontRecord record)) k)) : 0 ≤ u := by
  rcases h with h | ⟨t, missing, heq⟩
  · exact h.1
  · cases heq

theorem removes_erased {k : Option (Str × Int) → FontTask Int} (hids : IdsMatch w.registry)
    (h : Shaped (.call (.registry (.eraseClient t)) k)) (hreg : Registered w.registry t u)
    (hu : 0 ≤ u) (io : Io) :
    Removes u t url (k (w.exec (.registry (.eraseClient t)) io).1) := by
  obtain ⟨info, hinfo, rfl⟩ := hreg
  have hreply : (w.exec (.registry (.eraseClient t)) io).1 =
      some (makeAppIdentifier fontScopeApp t, info.userId) := by
    show (w.registry.eraseClient t).1 = _
    rw [FontClientRegistry.eraseClient_reply, hinfo, ← hids t info hinfo]
    rfl
  rcases h with h | ⟨t', missing, heq⟩
  · exact h.1.elim
  · cases heq
    rw [hreply]
    exact eventually_bind_left (removes_cleanup hu)

def readsNeeded (o : Op) (io : Io) : Prop :=
  match o with
  | .config _ (.getFontRecordsByAppId _) => io.ok = true
  | .config _ (.deleteScopeFontRecordByUrl _) => io.ok = true
  | _ => True

theorem reads_of_orderly {i : Nat} {io : Io} (hok : orderly s (.act i io) = true)
    (hop : s.operation (.act i io : ServerStep) = some o) : readsNeeded o io := by
  simp only [orderly, hop, Bool.and_eq_true] at hok
  cases o with
  | config u op =>
    cases op with
    | getFontRecordsByAppId id => exact hok.2
    | deleteScopeFontRecordByUrl srcPath => exact hok.2
    | _ => trivial
  | _ => trivial

theorem sweeping_next {io : Io} (hio : io.write = .complete) (hreads : readsNeeded o io)
    (hdistinct : Distinct (listedKeys (w.config u))) {key : RecordKey}
    (hold : key ∈ listedKeys (w.config u)) (happ : isApp key = true)
    (hs : key.srcPath = some url) (hid : key.appIdentifier = some (makeAppIdentifier fontScopeApp t))
    (hnew : key ∈ listedKeys ((w.exec o io).2.config u)) {k : o.Reply → FontTask Int}
    (h : Removes u t url (.call o k)) : Removes u t url (k (w.exec o io).1) := by
  rcases h with rfl | h
  · rw [World.exec, keys_deleteByUrl url hreads hio] at hnew
    exact absurd hnew (not_mem_eraseP hdistinct happ hs)
  · refine h _ ?_
    cases o with
    | config v op =>
      cases op with
      | getFontRecordsByAppId id =>
        rintro rfl rfl
        rw [World.exec, World.execConfig_readable hreads]
        exact mem_getFontRecordsByAppId hold hid hs
      | _ => trivial
    | _ => trivial

theorem orderly_insert {i : Nat} {io : Io} {record : FontRecordInfo}
    (hok : orderly s (.act i io) = true)
    (hop : s.operation (.act i io : ServerStep) = some (.config u (.insertScopeFontRecord record))) :
    (∀ k ∈ listedKeys (s.world.config u), clash k (keyOf (constructScopeCJSON record)) = false) ∧
      (isApp (keyOf (constructScopeCJSON record)) = true →
        (∃ url, (keyOf (constructScopeCJSON record)).srcPath = some url) ∧
          ∃ t, record.appIdentifier = makeAppIdentifier fontScopeApp t ∧
            Registered s.world.registry t u) := by
  simp only [orderly, hop, orderlyInsert, Bool.and_eq_true, Bool.or_eq_true, List.all_eq_true,
    Bool.not_eq_true', Option.isSome_iff_exists] at hok
  refine ⟨hok.2.1, fun happ => ?_⟩
  rcases hok.2.2 with hnot | ⟨hsrc, howner⟩
  · rw [happ] at hnot
    cases hnot
  · exact ⟨hsrc, registered_of_owner howner⟩

theorem held_act {i : Nat} {io : Io} {l : Request} {o : Op} {k : o.Reply → FontTask Int}
    (hs : Held s) (hok : orderly s (.act i io) = true) (hi : s.threads[i]? = some ⟨l, .call o k⟩)
    (hop : s.operation (.act i io : ServerStep) = some o) :
    Held (FontManagerServer.service.advance s i l o k io) := by
  have hio : io.write = .complete := by
    refine Io.complete_of_completes ?_
    simp only [orderly, Bool.and_eq_true] at hok
    exact hok.1
  have hshaped : Shaped (.call o k) := hs.shaped _ (List.mem_of_getElem? hi)
  have hself := Service.mem_advance_self (v := FontManagerServer.service) hi io
  refine ⟨ids_exec hs.ids o io, fun thread ht => ?_, ?_, fun u key hkey happ => ?_⟩
  · rcases Service.mem_advance ht with ht | rfl
    · exact hs.shaped _ ht
    · exact shaped_next hshaped _
  · exact distinct_exec hs.distinct hio fun v record ho => (orderly_insert hok (ho ▸ hop)).1
  · have old : key ∈ listedKeys (s.world.config u) →
        ∃ t url, Owned (FontManagerServer.service.advance s i l o k io) u key t url := by
      intro hold
      obtain ⟨t, url, hu, hsrc, hid, hkept⟩ := hs.owned u key hold happ
      refine ⟨t, url, hu, hsrc, hid, ?_⟩
      rcases hkept with hreg | ⟨thread, hthread, hremoves⟩
      · by_cases ho : o = .registry (.eraseClient t)
        · subst ho
          exact Or.inr ⟨_, hself, removes_erased hs.ids hshaped hreg hu io⟩
        · exact Or.inl (registered_exec hreg io ho)
      · rcases Service.mem_advance_of_mem (v := FontManagerServer.service) hi io hthread with
          rfl | hthread
        · exact Or.inr ⟨_, hself,
            sweeping_next hio (reads_of_orderly hok hop) (hs.distinct u) hold happ hsrc hid hkey hremoves⟩
        · exact Or.inr ⟨thread, hthread, hremoves⟩
    rcases keys_exec u s.world o hio with heq | heq | ⟨op, rfl, heq⟩
    · exact old (heq ▸ hkey)
    · exact absurd (heq ▸ hkey) List.not_mem_nil
    · rcases mem_expected (heq ▸ hkey) with hold | hnot | ⟨record, rfl, rfl⟩
      · exact old hold
      · rw [happ] at hnot
        cases hnot
      · obtain ⟨⟨url, hurl⟩, t, ht, hreg⟩ := (orderly_insert hok hop).2 happ
        exact ⟨t, url, user_of_insert hshaped, hurl, appIdentifier_of_owner ht,
          Or.inl (registered_exec hreg io (by simp))⟩

theorem held_step {e : ServerStep} {s' : ServerSystem} (hs : Held s) (hok : orderly s e = true)
    (h : FontManagerServer.service.machine.next s e = some s') : Held s' := by
  cases e with
  | spawn q =>
    obtain rfl := Service.next_spawn h
    refine ⟨hs.ids, fun thread ht => ?_, hs.distinct, fun u k hk happ => ?_⟩
    · rcases List.mem_append.mp ht with ht | ht
      · exact hs.shaped thread ht
      · obtain rfl := List.mem_singleton.mp ht
        exact shaped_program q
    · obtain ⟨t, url, hu, hsrc, hid, hkept⟩ := hs.owned u k hk happ
      exact ⟨t, url, hu, hsrc, hid, hkept.imp_right fun ⟨thread, ht, hr⟩ =>
        ⟨thread, List.mem_append_left _ ht, hr⟩⟩
  | act i io =>
    obtain ⟨l, o, k, hi, hop, rfl⟩ := Service.next_act h
    exact held_act hs hok hi hop

theorem held_start (hempty : w.registry = .empty) (hclean : AppFontsRegistered w) :
    Held ⟨w, []⟩ := by
  have hnone : ∀ u, ∀ k ∈ listedKeys (w.config u), isApp k = false := fun u k hk => by
    by_contra happ
    obtain ⟨t, -, ht⟩ := hclean u k hk (by simpa using happ)
    rw [hempty] at ht
    cases ht
  refine ⟨fun t info h => ?_, by simp, fun u => ?_, fun u k hk happ => ?_⟩
  · rw [show (World.registry w) = .empty from hempty] at h
    cases h
  · refine List.pairwise_of_forall_mem_list fun k hk k' hk' => ?_
    simp [clash, hnone u k hk, hnone u k' hk']
  · rw [hnone u k hk] at happ
    cases happ

end step

theorem registered_when_idle {w : World} {es : List ServerStep} {t : ServerSystem}
    (hempty : w.registry = .empty) (hclean : AppFontsRegistered w)
    (h : FontManagerServer.service.machine.Run (fun s e => orderly s e = true) ⟨w, []⟩ es t)
    (hidle : t.idle = true) : AppFontsRegistered t.world := by
  have hheld : Held t :=
    h.invariant (fun _ _ _ hs hok hn => held_step hs hok hn) (held_start hempty hclean)
  intro u k hk happ
  obtain ⟨token, url, -, -, hid, hkept⟩ := hheld.owned u k hk happ
  refine ⟨token, hid, ?_⟩
  rcases hkept with ⟨info, hinfo, -⟩ | ⟨thread, hthread, hremoves⟩
  · rw [FontClientRegistry.isClientRegistered, hinfo]
    rfl
  · obtain ⟨code, hdone⟩ := eq_done_of_finished (List.all_eq_true.mp hidle thread hthread)
    rw [hdone] at hremoves
    exact hremoves.elim

section death

def named : Request → Bool
  | .onFontObserver _ _ => true
  | .offFontObserver _ => true
  | .installScopeFont _ _ _ _ _ => true
  | .uninstallScopeFont _ _ => true
  | .clientDied _ => true
  | _ => false

def faultless : ServerStep → Bool
  | .spawn q => named q
  | .act _ io => io.ok && io.sent.isNone && io.completes

def owner : Caller := ⟨false, true, 5, 100, "bundle".toList⟩

def appInstall : Request :=
  .installScopeFont owner (Sample.noon 0) (Sample.sourceFont "A".toList 1) fontScopeApp
    "/a".toList

def deathInside : List ServerStep :=
  [.spawn (.onFontObserver owner true)] ++ Sample.acts 0 1 ++ [.spawn appInstall] ++
    Sample.acts 1 1 ++ [.spawn (.clientDied 5)] ++ Sample.acts 2 3 ++ Sample.acts 1 17

theorem provisioned_clean (userIds : List Int) : AppFontsRegistered (.provisioned userIds) := by
  intro u k hk
  rw [keys_provisioned] at hk
  cases hk

theorem app_font_outlives :
    ¬ ∀ (w : World) (es : List ServerStep) (t : ServerSystem), w.registry = .empty →
      AppFontsRegistered w →
        FontManagerServer.service.machine.Run (fun _ e => faultless e = true) ⟨w, []⟩ es t →
          t.idle = true → AppFontsRegistered t.world := by
  intro h
  obtain ⟨t, hrun, ht⟩ := Machine.exists_run_of_replay (m := FontManagerServer.service.machine)
    (fun _ e => faultless e)
    (fun t => t.idle && t.world.registry.clients.isEmpty &&
      (listedKeys (t.world.config 100)).any isApp)
    ⟨.provisioned [100], []⟩ deathInside (by decide +kernel)
  simp only [Bool.and_eq_true, List.any_eq_true, List.isEmpty_iff] at ht
  obtain ⟨⟨hidle, hclients⟩, k, hk, happ⟩ := ht
  obtain ⟨token, -, hreg⟩ :=
    h _ _ t rfl (provisioned_clean [100]) hrun hidle 100 k hk happ
  simp [FontClientRegistry.isClientRegistered, FontClientRegistry.info, hclients] at hreg

def installed : List ServerStep :=
  [.spawn (.onFontObserver owner true)] ++ Sample.acts 0 1 ++ [.spawn appInstall] ++ Sample.acts 1 18

theorem registered_after_install :
    ∃ t : ServerSystem, (listedKeys (t.world.config 100)).any isApp = true ∧
      AppFontsRegistered t.world := by
  obtain ⟨t, hrun, ht⟩ := Machine.exists_run_of_replay (m := FontManagerServer.service.machine)
    orderly (fun t => t.idle && (listedKeys (t.world.config 100)).any isApp)
    ⟨.provisioned [100], []⟩ installed (by decide +kernel)
  obtain ⟨hidle, hany⟩ := Bool.and_eq_true_iff.mp ht
  exact ⟨t, hany, registered_when_idle rfl (provisioned_clean [100]) hrun hidle⟩

end death

end ScopeRegistration
