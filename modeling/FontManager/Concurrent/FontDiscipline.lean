import FontManager.Concurrent.AppDirectories
import FontManager.Interaction.Interference

open FontDefine FontManagerUtils FontConfig FontLocation CJson Interaction Program

namespace LastingFonts

open ScopeRegistration
open Mutation (rewrites)
open Versions (Current known current_updated)

-- The client whose fonts a request cleans up.
def sweeps : Request → Option Int
  | .offFontObserver caller => if caller.updateScopeFont then some caller.tokenId else none
  | .clientDied tokenId => some tokenId
  | _ => none

def cleans (t : Int) (q : Request) : Bool :=
  q = .cleanupAppScopeFontsOnStart || sweeps q = some t

def fontName (env : Env) (fd : Fd) : Str :=
  FontManager.taggedName env (getFileName (getFilePathByFd fd))

def place : Request → Option Place
  | .installScopeFont caller env fd scope _ =>
    if scope = fontScopeApp then some ⟨caller.userId, caller.tokenId, fontName env fd⟩ else none
  | _ => none

def installs (t : Int) (q : Request) : Bool := (place q).any fun p => p.tokenId = t

def clashes (q q' : Request) : Bool :=
  (place q').any fun p => cleans p.tokenId q || place q = some p

def sweptBy (q : Request) (k : RecordKey) : Bool :=
  q = .cleanupAppScopeFontsOnStart ||
    (sweeps q).any fun t => k.appIdentifier = some (makeAppIdentifier fontScopeApp t)

def permitted (q : Request) (w : World) (o : Op) (io : Io) : Bool :=
  io.completes &&
    match o with
    | .file (.createConfig path) => !w.pathExists path
    | .file (.rename _ dest) => (place q).isNone || !w.pathExists dest
    | .config u .checkAndUpdateFontRecord =>
      (w.config u).all fun j => !rewrites (some j) || known j
    | .config _ (.insertScopeFontRecord _) => io.ok
    | .config u (.deleteScopeFontRecordByUrl srcPath) =>
      ((listed (w.config u)).find? (atUrl srcPath)).all fun item =>
        !isApp (keyOf item) || sweptBy q (keyOf item)
    | _ => true

section discipline

variable {q : Request} {t : Int} {w v : World} {o : Op} {io : Io}

theorem cleans_of_installs (h : installs t q = true) (t' : Int) : cleans t' q = false := by
  cases q with
  | installScopeFont caller env fd scope srcPath => simp [cleans, sweeps]
  | _ => simp [installs, place] at h

theorem write_of_permitted (h : permitted q w o io = true) : io.write = .complete :=
  Io.complete_of_completes (Bool.and_eq_true_iff.mp h).1

theorem read_of_permitted {u : Int} {record : FontRecordInfo}
    (h : permitted q w (.config u (.insertScopeFontRecord record)) io = true) : io.ok = true :=
  (Bool.and_eq_true_iff.mp h).2

theorem known_of_permitted {u : Int}
    (h : permitted q w (.config u .checkAndUpdateFontRecord) io = true) :
    ∀ j ∈ w.config u, rewrites (some j) = true → known j = true := by
  intro j hj hrewrites
  have hstep := (Bool.and_eq_true_iff.mp h).2
  have hj' : w.config u = some j := hj
  simpa [hj', hrewrites] using hstep

-- A session font's file lands in a directory of its own; an application's only where none is.
def landsAside (q : Request) : Op → Prop
  | .file (.rename _ dest) => place q = none → ∀ t, Aside t (· = locate dest)
  | _ => True

structure Fair (q : Request) (o : Op) : Prop where
  tame : tame o
  spares : ∀ t, cleans t q = false → spares t o
  rests : ∀ p, cleans p.tokenId q = false → place q ≠ some p → rests p o
  lands : landsAside q o

theorem misses_of_permitted (h : permitted q w o io = true) (ho : Fair q o)
    (hq : cleans t q = false) : misses t w o := by
  have hstep := (Bool.and_eq_true_iff.mp h).2
  cases o with
  | config u op =>
    cases op with
    | deleteScopeFontRecordByUrl srcPath =>
      intro item hitem ⟨happ, hid⟩
      dsimp only at hstep
      rw [hitem, Option.all_some, happ, Bool.not_true, Bool.false_or, sweptBy, Bool.or_eq_true] at hstep
      simp only [cleans, Bool.or_eq_false_iff, decide_eq_false_iff_not] at hq
      rcases hstep with hstart | hswept
      · exact hq.1 (of_decide_eq_true hstart)
      · obtain ⟨t', ht', heq⟩ := Option.any_eq_true _ _ |>.mp hswept
        have hsame := hid.symm.trans (of_decide_eq_true heq)
        obtain ⟨-, rfl⟩ := makeAppIdentifier_injective (Or.inl rfl) (Or.inl rfl) (Option.some.inj hsame)
        exact hq.2 ht'
    | _ => trivial
  | file op =>
    cases op with
    | createConfig path =>
      show w.pathExists path = false
      simpa using hstep
    | rename src dest =>
      rcases Bool.or_eq_true_iff.mp hstep with hnone | hvacant
      · exact Or.inr (ho.lands (Option.isNone_iff_eq_none.mp hnone) t)
      · exact Or.inl (by simpa using hvacant)
    | _ => trivial
  | _ => trivial

theorem clashes_of {q q' : Request} (hq : cleans t q = true) (hq' : installs t q' = true) :
    clashes q q' = true := by
  obtain ⟨p, hp, ht⟩ := (Option.any_eq_true _ _).mp hq'
  refine (Option.any_eq_true _ _).mpr ⟨p, hp, ?_⟩
  rw [of_decide_eq_true ht, hq, Bool.true_or]

theorem clashes_of_place {q q' : Request} {p : Place} (hq' : place q' = some p)
    (h : ¬ clashes q q' = true) : cleans p.tokenId q = false ∧ place q ≠ some p := by
  simpa [clashes, hq'] using h

structure Respects (q : Request) (w v : World) : Prop where
  keeps : ∀ t, installs t q = true → Keeps t w v
  rests : ∀ p, place q = some p → Rests p w v

structure Harmless (q : Request) (w v : World) : Prop where
  keeps : ∀ t, cleans t q = false → Keeps t w v
  rests : ∀ p, cleans p.tokenId q = false → place q ≠ some p → Rests p w v

def discipline : Discipline sig Request World Io where
  ok q w o io := permitted q w o io = true
  rely q u v := Settled u → Settled v ∧ Respects q u v
  guar q u v := Settled u → Settled v ∧ Harmless q u v
  inv := Settled
  clash q q' := clashes q q' = true
  refl _ w h := ⟨h, fun t _ => .refl t w, fun _ _ _ h => h⟩
  trans _ _ _ _ h h' hu :=
    ⟨(h' (h hu).1).1, fun t ht => ((h hu).2.keeps t ht).trans ((h' (h hu).1).2.keeps t ht),
      fun p hp content hs => (h' (h hu).1).2.rests p hp content ((h hu).2.rests p hp content hs)⟩
  compat _ _ _ _ hclash h hu :=
    ⟨(h hu).1, fun t ht => (h hu).2.keeps t (Bool.eq_false_iff.mpr fun hc => hclash (clashes_of hc ht)),
      fun p hp => (h hu).2.rests p (clashes_of_place hp hclash).1 (clashes_of_place hp hclash).2⟩
  keeps _ _ _ h hu := (h hu).1

abbrev Serves {α : Type} (q : Request) (p : FontTask α) (Q : α → World → Prop) (w : World) : Prop :=
  p.Amid semantics discipline q Q w

-- What a request may rely on once it holds: the fonts that it installs are kept by the others.
structure Stable (q : Request) (K : World → Prop) : Prop where
  settled : ∀ w, K w → Settled w
  kept : ∀ w v, Settled v → (∀ t, installs t q = true → Keeps t w v) → K w → K v

theorem settled_stable (q : Request) : Stable q Settled := ⟨fun _ h => h, fun _ _ h _ _ => h⟩

theorem guar_exec (ho : Fair q o) (hok : permitted q w o io = true) (hw : Settled w) :
    Settled (w.exec o io).2 ∧ Harmless q w (w.exec o io).2 := by
  have hio := write_of_permitted hok
  refine ⟨hw.exec ho.tame hio, fun t ht => ?_, fun p hp hplace => ?_⟩
  · exact keeps_exec (ho.spares t ht) (misses_of_permitted hok ho ht) hio
  · exact rests_exec (ho.rests p hp hplace) (misses_of_permitted hok ho hp)

namespace Serves

variable {α : Type} {K : World → Prop} (hK : Stable q K) (hw : K w)

include hK hw

theorem step {f : o.Reply → FontTask α} {Q : α → World → Prop} (ho : Fair q o)
    (h : ∀ v io, permitted q v o io = true → K v → K (v.exec o io).2 →
      Serves q (f (v.exec o io).1) Q (v.exec o io).2) :
    Serves q (Program.perform (P := sig) o >>= f) Q w := by
  refine Amid.perform_bind fun v hv io hok => ?_
  obtain ⟨hsettled, hkept⟩ := hv (hK.settled w hw)
  have hguar := guar_exec ho hok hsettled
  have hold := hK.kept w v hsettled hkept.keeps hw
  refine ⟨fun _ => hguar, h v io hok hold ?_⟩
  exact hK.kept v _ hguar.1 (fun t ht => hguar.2.keeps t (cleans_of_installs ht t)) hold

theorem whatever {f : o.Reply → FontTask α} {Q : α → World → Prop} (ho : Fair q o)
    (h : ∀ r v, K v → Serves q (f r) Q v) : Serves q (Program.perform (P := sig) o >>= f) Q w :=
  step hK hw ho fun _ _ _ _ hv => h _ _ hv

theorem done {a : α} {Q : α → World → Prop} (h : ∀ v, K v → Q a v) : Serves q (pure a) Q w := by
  refine Amid.pure fun v hv => h v ?_
  obtain ⟨hsettled, hkept⟩ := hv (hK.settled w hw)
  exact hK.kept w v hsettled hkept.keeps hw

theorem routinely {p : FontTask α} (hp : always (P := sig) (fun _ _ => True) (Fair q) p) :
    Serves q p (fun _ => K) w := by
  refine Amid.of_always ?_ ?_ hp hw
  · intro w o io ho hok hinv
    have hguar := guar_exec ho hok (hK.settled w hinv)
    refine ⟨trivial, fun _ => hguar, ?_⟩
    exact hK.kept w _ hguar.1 (fun t ht => hguar.2.keeps t (cleans_of_installs ht t)) hinv
  · intro w v hv hinv
    obtain ⟨hsettled, hkept⟩ := hv (hK.settled w hinv)
    exact hK.kept w v hsettled hkept.keeps hinv

end Serves

end discipline

section cleanups

variable {q : Request} {c u : Int} {w : World}

-- Operations that take no file away and move none.
def idle : Op → Prop
  | .file (.copy _ _) => False
  | .file (.rename _ _) => False
  | .file (.removeAll _) => False
  | .config _ (.deleteFontRecord _) => False
  | .config _ (.deleteScopeFontRecordByAppId _) => False
  | _ => True

theorem fair_of_idle {o : Op} (ho : tame o) (hidle : idle o) : Fair q o := by
  refine ⟨ho, fun t _ => ?_, fun p _ _ => ?_, ?_⟩
  · cases o with
    | config u op => cases op <;> trivial
    | file op => cases op <;> first | exact hidle.elim | exact ⟨fun _ h => h, fun _ _ _ h => h⟩
    | _ => trivial
  · cases o with
    | file op => cases op <;> first | exact hidle.elim | exact fun h => h
    | _ => trivial
  · cases o with
    | file op => cases op <;> first | exact hidle.elim | trivial
    | _ => trivial

theorem ne_of_sweeps {t : Int} (hq : sweeps q = some c) (ht : cleans t q = false) :
    makeAppIdentifier fontScopeApp c ≠ makeAppIdentifier fontScopeApp t := by
  intro he
  obtain ⟨-, rfl⟩ := makeAppIdentifier_injective (Or.inl rfl) (Or.inl rfl) he
  simp [cleans, hq] at ht

theorem erases_within (hq : sweeps q = some c) {path : Str} {l : Loc}
    (hpath : locate path = userDir u ++ makeAppIdentifier fontScopeApp c :: l) :
    ErasePermits (fun _ _ => True) (Fair q) path where
  look := fair_of_idle trivial trivial
  erase := by
    refine ⟨trivial, fun t ht => ?_, fun p hp _ => ?_, trivial⟩
    · show Aside t (locate path <+: ·)
      rw [hpath]
      exact aside_other (ne_of_sweeps hq ht) (fontConfigFile_ne_app fontScopeApp c) u l
    · show ¬ locate path <+: p.staging
      rw [hpath]
      exact staging_other (ne_of_sweeps hq hp) u l

theorem canonical_reply (w : World) (path : Str) (io : Io) :
    (w.exec (.file (.weaklyCanonical path)) io).1 = (none : Option Str) ∨
      (w.exec (.file (.weaklyCanonical path)) io).1 = some (lexicallyNormal path) := by
  cases hok : io.ok with
  | false => exact Or.inl (by simp [World.exec, World.execFile, hok])
  | true => exact Or.inr (by simp [World.exec, World.execFile, hok])

theorem serves_validateAndResolveRealPath (hw : Settled w) (path : Str) :
    Serves q (FontManager.validateAndResolveRealPath (installPath u) path)
      (fun r v => Settled v ∧ (r = [] ∨ r = lexicallyNormal (realPath u path))) w := by
  have hK := settled_stable q
  have hreads : ∀ path, Fair q (.file (.weaklyCanonical path)) := fun _ =>
    fair_of_idle trivial trivial
  have nothing : ∀ v, Settled v → Serves q (pure [] : FontTask Str)
      (fun r v => Settled v ∧ (r = [] ∨ r = lexicallyNormal (realPath u path))) v := fun v hv =>
    Serves.done hK hv fun _ hv => ⟨hv, Or.inl rfl⟩
  unfold FontManager.validateAndResolveRealPath
  split
  · exact nothing w hw
  · refine Serves.step hK hw (hreads _) fun v io _ _ hv => ?_
    rcases canonical_reply v (FontManager.sandBoxPathToRealPath (installPath u) path) io with
      hreply | hreply
    · rw [hreply]
      exact nothing _ hv
    · rw [hreply]
      refine Serves.whatever hK hv (hreads _) fun canonical v hv => ?_
      cases canonical with
      | none => exact nothing v hv
      | some canonicalInstall =>
        dsimp only
        split
        · exact Serves.done hK hv fun _ hv => ⟨hv, Or.inr rfl⟩
        · exact nothing v hv

theorem locate_resolved {name r : Str} (hn : Tagged name)
    (hr : r = lexicallyNormal (realPath u (home c name).sandbox)) :
    locate r = userDir u ++ makeAppIdentifier fontScopeApp c :: [name] := by
  have hvalid := home_valid hn c
  have hloc := locate_realPath hvalid u
  rw [hr, lexicallyNormal_of_locate hloc (by simp [Slot.loc, Slot.sub]),
    locate_joinPath (loc_plain hvalid u)]
  rfl

def AtHome (c : Int) (records : List FontRecordInfo) : Prop :=
  ∀ record ∈ records, ∃ name, Tagged name ∧ record.fontPath = (home c name).sandbox

theorem serves_sweepRecords (hq : sweeps q = some c) {records : List FontRecordInfo}
    (hrecords : AtHome c records) (hw : Settled w) :
    Serves q (FontManager.sweepRecords u records) (fun _ => Settled) w := by
  have hK := settled_stable q
  induction records generalizing w with
  | nil => exact Serves.done hK hw fun _ hv => hv
  | cons record rest ih =>
    obtain ⟨name, hn, hpath⟩ := hrecords record List.mem_cons_self
    refine Amid.bind (serves_validateAndResolveRealPath hw record.fontPath) fun r v hv => ?_
    have hremoval : always (P := sig) (fun _ _ => True) (Fair q) (FontManager.removeIfExists r) := by
      rcases hv.2 with rfl | hr
      · exact always_pure _
      · exact (erases_within hq (locate_resolved hn (hpath ▸ hr))).removeIfExists
    refine Amid.bind (Serves.routinely hK hv.1 hremoval) fun _ v hv => ?_
    refine Serves.step hK hv (fair_of_idle trivial trivial) fun v io _ _ hv => ?_
    exact ih (fun r hr => hrecords r (List.mem_cons_of_mem _ hr)) hv

theorem atHome_of_settled (hw : Settled w) (u c : Int) :
    AtHome c (getFontRecordsByAppId (makeAppIdentifier fontScopeApp c) (w.config u)) := by
  intro record hrecord
  obtain ⟨item, hitem, rfl⟩ := List.mem_map.mp hrecord
  obtain ⟨hitem, hid⟩ := List.mem_filter.mp hitem
  obtain ⟨name, hn, hpath⟩ := hw.homed u (keyOf item) (List.mem_map_of_mem hitem) c (beq_iff_eq.mp hid)
  refine ⟨name, hn, ?_⟩
  show (stringItem item FontConfig.fontPath).getD [] = _
  rw [show stringItem item FontConfig.fontPath = _ from hpath, Option.getD_some]

theorem atHome_reply (hw : Settled w) (u c : Int) (io : Io) :
    AtHome c (w.execConfig u (.getFontRecordsByAppId (makeAppIdentifier fontScopeApp c)) io).1 := by
  cases hread : io.ok with
  | true =>
    rw [World.execConfig_readable hread]
    exact atHome_of_settled hw u c
  | false =>
    rw [World.execConfig_unreadable hread]
    exact fun _ h => nomatch h

theorem serves_cleanupAppScopeFonts (hq : sweeps q = some c) (hw : Settled w) :
    Serves q (FontManager.cleanupAppScopeFonts (makeAppIdentifier fontScopeApp c) u)
      (fun _ => Settled) w := by
  have hK := settled_stable q
  have hdir : locate (FontManager.getAppInstallPath u (makeAppIdentifier fontScopeApp c)) =
      userDir u ++ makeAppIdentifier fontScopeApp c :: [] := by
    rw [getAppInstallPath_eq, locate_dirPath (appDir_plain u (makeAppIdentifier_plain _ c))]
  refine Serves.step hK hw (fair_of_idle trivial trivial) fun v io _ hv hv' => ?_
  refine Amid.bind (serves_sweepRecords hq (atHome_reply hv u c io) hv') fun _ v hv => ?_
  refine Amid.bind (Serves.routinely hK hv (always_reportRemoved
    (fun _ => fair_of_idle trivial trivial) _)) fun _ v hv => ?_
  refine Amid.bind (Serves.routinely hK hv (erases_within hq hdir).deleteDir) fun _ v hv => ?_
  exact Serves.done hK hv fun _ hv => hv

theorem serves_afterErase (hq : sweeps q = some c) (missing : FontErrorCode) (hw : Settled w)
    {client : Option (Str × Int)} (hclient : ∀ x ∈ client, x.1 = makeAppIdentifier fontScopeApp c) :
    Serves q (afterErase missing client) (fun _ => Settled) w := by
  have hK := settled_stable q
  cases client with
  | none => exact Serves.done hK hw fun _ hv => hv
  | some client =>
    obtain ⟨id, u⟩ := client
    obtain rfl : id = makeAppIdentifier fontScopeApp c := hclient _ rfl
    refine Amid.bind (R := fun _ => Settled) ?_ fun _ v hv => Serves.done hK hv fun _ hv => hv
    unfold FontClientRegistry.cleanup
    split
    · refine Amid.bind (serves_cleanupAppScopeFonts hq hw) fun _ v hv => ?_
      exact Serves.done hK hv fun _ hv => hv
    · exact Serves.done hK hw fun _ hv => hv

theorem serves_erase (hq : sweeps q = some c) (missing : FontErrorCode) (hw : Settled w) :
    Serves q (.call (.registry (.eraseClient c)) (afterErase missing)) (fun _ => Settled) w := by
  refine Serves.step (o := .registry (.eraseClient c)) (settled_stable q) hw
    (fair_of_idle trivial trivial) fun v io _ hv hv' => serves_afterErase hq missing hv' ?_
  intro x hx
  have hreply : (v.registry.info c).map (fun i => (i.appIdentifier, i.userId)) = some x :=
    FontClientRegistry.eraseClient_reply c ▸ hx
  obtain ⟨info, hinfo, rfl⟩ := Option.map_eq_some_iff.mp hreply
  exact hv.ids c info hinfo

end cleanups

section present

variable (caller : Caller) (env : Env) (fd : Fd)

def destination (scope : Int) : Str :=
  FontManager.getAppInstallPath caller.userId (makeAppIdentifier scope caller.tokenId) ++
    fontName env fd

def staging (scope : Int) : Str :=
  FontManager.getAppInstallPath caller.userId (makeAppIdentifier scope caller.tokenId) ++ tempFile ++
    fontName env fd

def installedRecord (scope : Int) (srcPath : Str) : FontRecordInfo :=
  FontManager.scopeRecord (FontManagerServer.scopeInfo caller fd scope srcPath)
    (destination caller env fd scope)

-- The record of the font with its names, and its file with the bytes that were handed over.
structure Present (srcPath : Str) (w : World) : Prop where
  record : constructScopeCJSON (installedRecord caller env fd fontScopeApp srcPath) ∈
    listed (w.config caller.userId)
  file : w.entry (destination caller env fd fontScopeApp) = some (.bytes fd.content)

variable {caller env fd} {scope : Int} {srcPath : Str}

theorem fontName_tagged (env : Env) (fd : Fd) : Tagged (fontName env fd) := taggedName_tagged env fd

theorem locate_destination (caller : Caller) (env : Env) (fd : Fd) (scope : Int) :
    locate (destination caller env fd scope) =
      userDir caller.userId ++ [makeAppIdentifier scope caller.tokenId, fontName env fd] := by
  rw [destination, getAppInstallPath_eq, locate_name (appDir_plain _ (makeAppIdentifier_plain _ _))
    (fontName_tagged env fd).plain, List.append_assoc]
  rfl

theorem locate_staging (caller : Caller) (env : Env) (fd : Fd) (scope : Int) :
    locate (staging caller env fd scope) =
      userDir caller.userId ++
        [makeAppIdentifier scope caller.tokenId, tempDir, fontName env fd] := by
  rw [staging, getAppInstallPath_eq, locate_tempFile (appDir_plain _ (makeAppIdentifier_plain _ _))
    (fontName_tagged env fd).plain, List.append_assoc]
  rfl

theorem key_installedRecord (caller : Caller) (env : Env) (fd : Fd) (scope : Int) (srcPath : Str) :
    (keyOf (constructScopeCJSON (installedRecord caller env fd scope srcPath))).appIdentifier =
        some (makeAppIdentifier scope caller.tokenId) ∧
      (keyOf (constructScopeCJSON (installedRecord caller env fd scope srcPath))).fontPath =
        some (Slot.sandbox ⟨some (makeAppIdentifier scope caller.tokenId), fontName env fd⟩) := by
  have hvalid : Slot.Valid ⟨some (makeAppIdentifier scope caller.tokenId), fontName env fd⟩ :=
    appSlot_valid env fd scope caller.tokenId
  have hpath : (installedRecord caller env fd scope srcPath).fontPath =
      Slot.sandbox ⟨some (makeAppIdentifier scope caller.tokenId), fontName env fd⟩ := by
    rw [sandbox_some, installedRecord, FontManager.scopeRecord, destination, getAppInstallPath_eq,
      getFileName_dirPath _ (fontName_tagged env fd).plain.noSlash]
    rfl
  rw [keyOf_constructScope, hpath, Text.cStr_of_nulFree (sandbox_nulFree hvalid)]
  exact ⟨Record.optional_of_nulFree (makeAppIdentifier_plain _ _).nonempty
    (makeAppIdentifier_nulFree _ _), rfl⟩

theorem homed_installedRecord (caller : Caller) (env : Env) (fd : Fd) (scope : Int) (srcPath : Str) :
    Homed (keyOf (constructScopeCJSON (installedRecord caller env fd scope srcPath))) := by
  obtain ⟨hid, hpath⟩ := key_installedRecord caller env fd scope srcPath
  intro t ht
  rw [Option.some.inj (hid.symm.trans ht)] at hpath
  exact ⟨fontName env fd, fontName_tagged env fd, hpath⟩

theorem isApp_installedRecord (caller : Caller) (env : Env) (fd : Fd) (srcPath : Str) :
    isApp (keyOf (constructScopeCJSON (installedRecord caller env fd fontScopeApp srcPath))) = true := by
  have hscope : (installedRecord caller env fd fontScopeApp srcPath).scope = fontScopeApp := rfl
  have happ : decide (valueint ((fontScopeApp : Int) : Rat) = fontScopeApp) = true := by decide +kernel
  rw [keyOf_constructScope, hscope, if_pos (by decide)]
  exact happ

theorem entry_destination {w : World} : w.entry (destination caller env fd fontScopeApp) =
    w.tree.lookup ((home caller.tokenId (fontName env fd)).loc caller.userId) :=
  congrArg w.tree.lookup (locate_destination caller env fd fontScopeApp)

theorem ownItem_installedRecord (caller : Caller) (env : Env) (fd : Fd) (srcPath : Str) :
    ownItem caller.tokenId
      (constructScopeCJSON (installedRecord caller env fd fontScopeApp srcPath)) :=
  ⟨isApp_installedRecord caller env fd srcPath,
    (key_installedRecord caller env fd fontScopeApp srcPath).1⟩

theorem insert_lands {w : World} {u : Int} {record : FontRecordInfo} {io : Io}
    (harray : arrayList (w.config u) = true) (hread : io.ok = true) (hio : io.write = .complete) :
    (w.execConfig u (.insertScopeFontRecord record) io).1 = true ∧
      constructScopeCJSON record ∈
        listed ((w.execConfig u (.insertScopeFontRecord record) io).2.config u) := by
  have hreply : (w.execConfig u (.insertScopeFontRecord record) io).1 = true := by
    cases hconfig : w.config u with
    | none =>
      rw [hconfig] at harray
      cases harray
    | some j =>
      obtain ⟨json', hedit⟩ := Mutation.edit_insertScope io.fullNames (configPath u) record
        (hconfig ▸ harray)
      rw [World.execConfig_readable hread, hio, hconfig, hedit]
      rfl
  refine ⟨hreply, ?_⟩
  rw [Mutation.listed_execConfig w u _ hio, hreply, harray]
  exact List.mem_append_right _ (List.mem_singleton_self _)

end present

section installation

variable {caller : Caller} {env : Env} {fd : Fd} {scope : Int} {srcPath : Str} {w v : World}
  {q : Request}

structure Concerns (q : Request) (caller : Caller) (env : Env) (fd : Fd) (scope : Int) : Prop where
  cleans : ∀ t, cleans t q = false
  place : place q = if scope = fontScopeApp then
    some ⟨caller.userId, caller.tokenId, fontName env fd⟩ else none

theorem concerns_install (caller : Caller) (env : Env) (fd : Fd) (scope : Int) (srcPath : Str) :
    Concerns (.installScopeFont caller env fd scope srcPath) caller env fd scope :=
  ⟨fun t => by simp [cleans, sweeps], rfl⟩

namespace Concerns

theorem installs (hq : Concerns q caller env fd scope) (happ : scope = fontScopeApp) :
    installs caller.tokenId q = true := by
  simp [LastingFonts.installs, hq.place, happ]

theorem session (hq : Concerns q caller env fd scope) (hnone : LastingFonts.place q = none) :
    scope ≠ fontScopeApp := by
  intro happ
  rw [hq.place, if_pos happ] at hnone
  cases hnone

theorem other (hq : Concerns q caller env fd scope) {p : Place} (hp : LastingFonts.place q ≠ some p) :
    scope = fontScopeApp → (⟨caller.userId, caller.tokenId, fontName env fd⟩ : Place) ≠ p := by
  rintro happ rfl
  exact hp (by rw [hq.place, if_pos happ])

end Concerns

def While (scope : Int) (J : World → Prop) (w : World) : Prop :=
  Settled w ∧ (scope = fontScopeApp → J w)

theorem Concerns.stable (hq : Concerns q caller env fd scope) {J : World → Prop}
    (hJ : ∀ w v, Keeps caller.tokenId w v → J w → J v) : Stable q (While scope J) where
  settled _ h := h.1
  kept w v hv hkeeps h := ⟨hv, fun happ => hJ w v (hkeeps _ (hq.installs happ)) (h.2 happ)⟩

def Listing (caller : Caller) (w : World) : Prop := Current w caller.userId

structure Copied (caller : Caller) (env : Env) (fd : Fd) (w : World) : Prop where
  listing : Listing caller w
  file : Stored w caller.userId caller.tokenId (fontName env fd) fd.content

-- The font is there in a list whose records no update touches any more.
structure Placed (caller : Caller) (env : Env) (fd : Fd) (srcPath : Str) (w : World) : Prop where
  listing : Listing caller w
  present : Present caller env fd srcPath w

theorem Copied.kept {w v : World} (h : Keeps caller.tokenId w v) (hw : Copied caller env fd w) :
    Copied caller env fd v :=
  ⟨h.lists _ hw.listing, h.files _ _ _ (fontName_tagged env fd) hw.file⟩

theorem Placed.kept {w v : World} (h : Keeps caller.tokenId w v)
    (hw : Placed caller env fd srcPath w) : Placed caller env fd srcPath v where
  listing := h.lists _ hw.listing
  present :=
    { record := h.items _ hw.listing _ hw.present.record
        (ownItem_installedRecord caller env fd srcPath)
      file := by
        have hstored : Stored w caller.userId caller.tokenId (fontName env fd) fd.content :=
          entry_destination.symm.trans hw.present.file
        exact entry_destination.trans (h.files _ _ _ (fontName_tagged env fd) hstored) }

theorem Concerns.listing (hq : Concerns q caller env fd scope) :
    Stable q (While scope (Listing caller)) :=
  hq.stable fun _ _ h hw => h.lists _ hw

theorem Concerns.copied (hq : Concerns q caller env fd scope) :
    Stable q (While scope (Copied caller env fd)) :=
  hq.stable fun _ _ h hw => hw.kept h

theorem Concerns.placed (hq : Concerns q caller env fd scope) (srcPath : Str) :
    Stable q (While scope (Placed caller env fd srcPath)) :=
  hq.stable fun _ _ h hw => hw.kept h

theorem fair_setup (q : Request) : SetupPermits (fun _ _ => True) (Fair q) where
  setup op hop := by
    cases op <;> first
      | exact fair_of_idle trivial trivial
      | cases hop

theorem fair_query (q : Request) (u : Int) : QueryPermits (fun _ _ => True) (Fair q) u where
  config op hop := by
    cases op <;> first
      | exact fair_of_idle trivial trivial
      | cases hop
  limit := fair_of_idle trivial trivial

theorem aside_staging (t : Int) (caller : Caller) (env : Env) (fd : Fd) (scope : Int) :
    Aside t (locate (staging caller env fd scope) <+: ·) := by
  rw [locate_staging]
  exact aside_temp caller.userId (fontName env fd)

theorem staging_apart (hq : Concerns q caller env fd scope)
    (hscope : scope = fontScopeApp ∨ scope = fontScopeSession) {p : Place} (hp : place q ≠ some p) :
    ¬ locate (staging caller env fd scope) <+: p.staging := by
  rw [locate_staging]
  exact staging_own (hq.other hp) hscope

theorem fair_copy (hq : Concerns q caller env fd scope)
    (hscope : scope = fontScopeApp ∨ scope = fontScopeSession) :
    Fair q (.file (.copy fd (staging caller env fd scope))) where
  tame := trivial
  spares t _ := (aside_staging t caller env fd scope).mono fun _ hl => hl ▸ List.prefix_rfl
  rests _ _ hp := fun he => staging_apart hq hscope hp (he ▸ List.prefix_rfl)
  lands := trivial

theorem erases_staging (hq : Concerns q caller env fd scope)
    (hscope : scope = fontScopeApp ∨ scope = fontScopeSession) :
    ErasePermits (fun _ _ => True) (Fair q) (staging caller env fd scope) where
  look := fair_of_idle trivial trivial
  erase := ⟨trivial, fun t _ => aside_staging t caller env fd scope,
    fun _ _ hp => staging_apart hq hscope hp, trivial⟩

theorem aside_session (hne : scope ≠ fontScopeApp)
    (hscope : scope = fontScopeApp ∨ scope = fontScopeSession) (t : Int) :
    Aside t (locate (destination caller env fd scope) <+: ·) := by
  rw [locate_destination]
  refine aside_other (fun he => hne ?_) (fontConfigFile_ne_app scope caller.tokenId) caller.userId _
  exact (makeAppIdentifier_injective hscope (Or.inl rfl) he).1

theorem fair_rename (hq : Concerns q caller env fd scope)
    (hscope : scope = fontScopeApp ∨ scope = fontScopeSession) :
    Fair q (.file (.rename (staging caller env fd scope) (destination caller env fd scope))) where
  tame := trivial
  spares t _ := aside_staging t caller env fd scope
  rests _ _ hp := by
    refine ⟨staging_apart hq hscope hp, ?_⟩
    rw [locate_destination]
    exact staging_not_home
  lands hnone t :=
    (aside_session (hq.session hnone) hscope t).mono fun _ hl => FileTree.prefix_of_eq hl.symm

theorem rename_moves {src dest : Str} {content : List UInt8} {ok : Bool}
    (hsrc : w.entry src = some (.bytes content)) (h : (w.rename src dest ok).1 = true) :
    (w.rename src dest ok).2.entry dest = some (.bytes content) := by
  unfold World.rename at h ⊢
  rw [hsrc] at h ⊢
  dsimp only at h ⊢
  split
  · exact FileTree.lookup_put_self
  · rename_i hno
    rw [if_neg hno] at h
    cases h

theorem entry_staging {w : World} : w.entry (staging caller env fd fontScopeApp) =
    w.tree.lookup (Place.staging ⟨caller.userId, caller.tokenId, fontName env fd⟩) :=
  congrArg w.tree.lookup (locate_staging caller env fd fontScopeApp)

-- The staged file is the caller's own until it is moved: no other call works on its place.
theorem serves_renameFile (hq : Concerns q caller env fd scope)
    (hscope : scope = fontScopeApp ∨ scope = fontScopeSession)
    (hw : While scope (Listing caller) w)
    (hstaged : scope = fontScopeApp →
      Staged w ⟨caller.userId, caller.tokenId, fontName env fd⟩ fd.content) :
    Serves q (renameFile (staging caller env fd scope) (destination caller env fd scope))
      (fun b v => While scope (Listing caller) v ∧
        (b = true → While scope (Copied caller env fd) v)) w := by
  have hrest : ∀ {w v : World}, Respects q w v →
      (scope = fontScopeApp → Staged w ⟨caller.userId, caller.tokenId, fontName env fd⟩ fd.content) →
      scope = fontScopeApp → Staged v ⟨caller.userId, caller.tokenId, fontName env fd⟩ fd.content :=
    fun h hs happ => h.rests _ (by rw [hq.place, if_pos happ]) _ (hs happ)
  refine Amid.perform_bind fun v hv io hok => ?_
  obtain ⟨hsettled, hkept⟩ := hv hw.1
  have hw₁ := hq.listing.kept w v hsettled hkept.keeps hw
  have hstaged₁ := hrest hkept hstaged
  refine ⟨fun _ => guar_exec (fair_of_idle trivial trivial) hok hsettled, ?_⟩
  change Serves q (if (v.exec (.file (.exists (staging caller env fd scope))) io).1 = true then _
    else _) _ v
  split
  · refine Amid.perform_bind (f := pure) fun v₂ hv₂ io hok => ?_
    obtain ⟨hsettled, hkept⟩ := hv₂ hw₁.1
    have hw₂ := hq.listing.kept v v₂ hsettled hkept.keeps hw₁
    have hstaged₂ := hrest hkept hstaged₁
    have hguar := guar_exec (fair_rename hq hscope) hok hsettled
    have hw₃ := hq.listing.kept v₂ _ hguar.1
      (fun t ht => hguar.2.keeps t (cleans_of_installs ht t)) hw₂
    refine ⟨fun _ => hguar, ?_⟩
    cases hb : (v₂.rename (staging caller env fd scope) (destination caller env fd scope) io.ok).1 with
    | false =>
      exact Serves.done hq.listing hw₃ fun _ hv => ⟨hv, fun h => by cases hb.symm.trans h⟩
    | true =>
      refine Serves.done hq.copied ⟨hw₃.1, fun happ => ⟨hw₃.2 happ, ?_⟩⟩ fun _ hv =>
        ⟨⟨hv.1, fun happ => (hv.2 happ).listing⟩, fun _ => hv⟩
      subst happ
      rw [Stored, ← entry_destination]
      exact rename_moves (entry_staging.trans (hstaged₂ rfl)) hb
  · exact Serves.done hq.listing hw₁ fun _ hv => ⟨hv, fun h => by cases h⟩

theorem serves_copyFileForInstall (hq : Concerns q caller env fd scope)
    (hscope : scope = fontScopeApp ∨ scope = fontScopeSession)
    (hw : While scope (Listing caller) w) :
    Serves q (FontManager.copyFileForInstall env
        (FontManager.getAppInstallPath caller.userId (makeAppIdentifier scope caller.tokenId))
        (getFileName (getFilePathByFd fd)) fd)
      (fun r v => While scope (Listing caller) v ∧ (r ≠ [] → r = destination caller env fd scope ∧
        While scope (Copied caller env fd) v)) w := by
  have nothing : ∀ v, While scope (Listing caller) v → Serves q (pure [] : FontTask Str)
      (fun r v => While scope (Listing caller) v ∧ (r ≠ [] → r = destination caller env fd scope ∧
        While scope (Copied caller env fd) v)) v := fun v hv =>
    Serves.done hq.listing hv fun _ hv => ⟨hv, fun h => absurd rfl h⟩
  refine Serves.step hq.listing hw (fair_copy hq hscope) fun v io _ _ hv => ?_
  cases hb : (v.copy fd (staging caller env fd scope) io).1 with
  | false =>
    change Serves q (if (v.copy fd (staging caller env fd scope) io).1 = true then _ else _) _ _
    rw [hb]
    exact nothing _ hv
  | true =>
    have hstaged : scope = fontScopeApp →
        Staged (v.copy fd (staging caller env fd scope) io).2
          ⟨caller.userId, caller.tokenId, fontName env fd⟩ fd.content := by
      rintro rfl
      exact entry_staging.symm.trans (Ensures.copy_content hb)
    change Serves q (if (v.copy fd (staging caller env fd scope) io).1 = true then _ else _) _ _
    rw [hb, if_pos rfl]
    refine Amid.bind (serves_renameFile hq hscope hv hstaged) fun b v hv => ?_
    cases b with
    | false =>
      exact Amid.bind (Serves.routinely hq.listing hv.1 (erases_staging hq hscope).removeFile)
        fun _ => nothing
    | true =>
      exact Serves.done hq.copied (hv.2 rfl) fun _ hv =>
        ⟨⟨hv.1, fun happ => (hv.2 happ).listing⟩, fun _ => ⟨rfl, hv⟩⟩

theorem fair_insert (q : Request) (caller : Caller) (env : Env) (fd : Fd) (scope : Int)
    (srcPath : Str) : Fair q (.config caller.userId (.insertScopeFontRecord
      (installedRecord caller env fd scope srcPath))) :=
  fair_of_idle (homed_installedRecord caller env fd scope srcPath) trivial

-- A rollback happens to a session font only: where a list is kept, an insertion succeeds.
theorem erases_session (hscope : scope = fontScopeSession) :
    ErasePermits (fun _ _ => True) (Fair q) (destination caller env fd scope) where
  look := fair_of_idle trivial trivial
  erase := by
    have hne : scope ≠ fontScopeApp := hscope ▸ by decide
    refine ⟨trivial, fun t _ => aside_session hne (Or.inr hscope) t, fun p _ _ => ?_, trivial⟩
    show ¬ locate (destination caller env fd scope) <+: p.staging
    rw [locate_destination]
    refine staging_other (fun he => hne ?_) caller.userId _
    exact (makeAppIdentifier_injective (Or.inr hscope) (Or.inl rfl) he).1

theorem serves_copyAndInsertScopeFont (hq : Concerns q caller env fd scope)
    (hscope : scope = fontScopeApp ∨ scope = fontScopeSession)
    (hw : While scope (Listing caller) w) :
    Serves q (FontManager.copyAndInsertScopeFont env
        (FontManagerServer.scopeInfo caller fd scope srcPath))
      (fun code v => Settled v ∧
        (code = .ok → While scope (Placed caller env fd srcPath) v)) w := by
  have failed : ∀ {code : FontErrorCode} {v}, code ≠ .ok → While scope (Listing caller) v →
      Serves q (pure code : FontTask FontErrorCode) (fun code v => Settled v ∧
        (code = .ok → While scope (Placed caller env fd srcPath) v)) v := fun hcode hv =>
    Serves.done hq.listing hv fun _ hv => ⟨hv.1, fun h => absurd h hcode⟩
  refine Amid.bind (Serves.routinely hq.listing hw ((fair_setup q).checkAndInitScopeFontPath _))
    fun b v hv => ?_
  cases b with
  | false => exact failed (by simp) hv
  | true =>
    refine Amid.bind (serves_copyFileForInstall hq hscope hv) fun r v hv => ?_
    split
    · exact failed (by simp) hv.1
    · rename_i hne
      obtain ⟨rfl, hcopied⟩ := hv.2 hne
      refine Serves.step hq.copied hcopied (fair_insert q caller env fd scope srcPath)
        fun v io hok hv hv' => ?_
      change Serves q (if (v.execConfig caller.userId (.insertScopeFontRecord
        (installedRecord caller env fd scope srcPath)) io).1 = true then _ else _) _ _
      rcases hscope with rfl | hsession
      · obtain ⟨hreply, hrecord⟩ := insert_lands (hv.2 rfl).listing.array (read_of_permitted hok)
          (write_of_permitted hok)
        rw [if_pos hreply]
        have hfile := (hv'.2 rfl).file
        rw [Stored, ← entry_destination] at hfile
        exact Serves.done (hq.placed srcPath)
          ⟨hv'.1, fun _ => ⟨(hv'.2 rfl).listing, hrecord, hfile⟩⟩ fun _ hv => ⟨hv.1, fun _ => hv⟩
      · have hK := settled_stable q
        have hne : scope ≠ fontScopeApp := hsession ▸ by decide
        split
        · exact Serves.done hK hv'.1 fun _ hv => ⟨hv, fun _ => ⟨hv, fun happ => absurd happ hne⟩⟩
        · refine Amid.bind (Serves.routinely hK hv'.1 (erases_session hsession).deleteDir)
            fun _ v hv => ?_
          exact Serves.done hK hv fun _ hv => ⟨hv, fun h => by cases h⟩

theorem listing_updated {io : Io} (hw : Settled w)
    (hok : permitted q w (.config caller.userId .checkAndUpdateFontRecord) io = true)
    (h : (w.execConfig caller.userId .checkAndUpdateFontRecord io).1 = true) :
    Listing caller (w.execConfig caller.userId .checkAndUpdateFontRecord io).2 := by
  have harray : arrayList (w.config caller.userId) = true := by
    refine (hw.arrays caller.userId).resolve_left fun hnone => ?_
    have hread : w.checkConfigFile caller.userId io.ok = none := by
      rw [World.checkConfigFile, hnone, ite_self]
    rw [World.execConfig, hread, edit_none] at h
    cases h
  exact current_updated harray (write_of_permitted hok) (known_of_permitted hok) h

theorem serves_installScopeFont (hq : Concerns q caller env fd scope) (hw : Settled w) :
    Serves q (FontManager.installScopeFont env (FontManagerServer.scopeInfo caller fd scope srcPath))
      (fun code v => code = .ok → While scope (Placed caller env fd srcPath) v) w := by
  have hK := settled_stable q
  have failed : ∀ {code : FontErrorCode} {v}, code ≠ .ok → Settled v →
      Serves q (pure code : FontTask FontErrorCode)
        (fun code v => code = .ok → While scope (Placed caller env fd srcPath) v) v :=
    fun hcode hv => Serves.done hK hv fun _ _ h => absurd h hcode
  unfold FontManager.installScopeFont
  split
  · exact failed (by simp) hw
  · rename_i hscope
    rw [not_and_or, not_not, not_not] at hscope
    refine Amid.bind (Serves.routinely hK hw ((fair_setup q).checkAndInitInstallPath _)) fun b v hv => ?_
    cases b with
    | false => exact failed (by simp) hv
    | true =>
      refine Serves.step hK hv (fair_of_idle trivial trivial) fun v io hok hv hv' => ?_
      change Serves q (if (v.execConfig caller.userId .checkAndUpdateFontRecord io).1 = true then _
        else _) _ _
      split
      · rename_i hupdated
        have hlisting : While scope (Listing caller) (v.execConfig caller.userId
            .checkAndUpdateFontRecord io).2 := ⟨hv', fun _ => listing_updated hv hok hupdated⟩
        refine Amid.bind (Serves.routinely hq.listing hlisting
          ((fair_query q caller.userId).validateScopeFontForInstall _ _)) fun ret v hv => ?_
        split
        · exact failed (by assumption) hv.1
        · refine Amid.bind (serves_copyAndInsertScopeFont hq hscope hv) fun code v hv => ?_
          split
          · exact failed (by assumption) hv.1
          · rename_i hcode
            have hplaced := hv.2 (not_not.mp hcode)
            refine Serves.whatever (hq.placed srcPath) hplaced (fair_of_idle trivial trivial)
              fun _ v hv => ?_
            exact Serves.done (hq.placed srcPath) hv fun _ hv _ => hv
      · exact failed (by simp) hv'

end installation

section requests

variable {q : Request} {w : World}

def Reported (q : Request) (code : Int) (w : World) : Prop :=
  ∀ caller env fd srcPath, q = .installScopeFont caller env fd fontScopeApp srcPath →
    code = FontErrorCode.ok.value → Placed caller env fd srcPath w

def awaited : Request → Bool
  | .onFontObserver _ _ => true
  | .offFontObserver _ => true
  | .installScopeFont _ _ _ _ _ => true
  | .clientDied _ => true
  | _ => false

theorem value_ok {code : FontErrorCode} (h : code.value = FontErrorCode.ok.value) : code = .ok := by
  cases code <;> first | rfl | cases h

theorem serves_installScopeFontInner {caller : Caller} {env : Env} {fd : Fd} {scope : Int}
    {srcPath : Str} (hw : Settled w) :
    Serves (.installScopeFont caller env fd scope srcPath)
      (FontManagerServer.installScopeFontInner caller env fd scope srcPath)
      (fun code v => code = .ok → While scope (Placed caller env fd srcPath) v) w := by
  have hq := concerns_install caller env fd scope srcPath
  have failed : ∀ {code : FontErrorCode} {v}, code ≠ .ok → Settled v →
      Serves (.installScopeFont caller env fd scope srcPath) (pure code : FontTask FontErrorCode)
        (fun code v => code = .ok → While scope (Placed caller env fd srcPath) v) v :=
    fun hcode hv => Serves.done (settled_stable _) hv fun _ _ h => absurd h hcode
  have registered : ∀ v, Settled v → Serves (.installScopeFont caller env fd scope srcPath)
      (FontManagerServer.installRegistered caller env fd scope srcPath)
      (fun code v => code = .ok → While scope (Placed caller env fd srcPath) v) v := by
    intro v hv
    unfold FontManagerServer.installRegistered
    split
    · exact failed (by simp) hv
    · exact serves_installScopeFont hq hv
  unfold FontManagerServer.installScopeFontInner
  split
  · exact failed (by simp) hw
  · split
    · exact failed (by simp) hw
    · split
      · exact failed (by simp) hw
      · split
        · refine Serves.whatever (settled_stable _) hw (fair_of_idle trivial trivial)
            fun b v hv => ?_
          cases b with
          | false => exact failed (by simp) hv
          | true => exact registered v hv
        · exact registered w hw

theorem serves_install {caller : Caller} {env : Env} {fd : Fd} {scope : Int} {srcPath : Str}
    (hw : Settled w) :
    Serves (.installScopeFont caller env fd scope srcPath)
      (FontManagerServer.program (.installScopeFont caller env fd scope srcPath))
      (Reported (.installScopeFont caller env fd scope srcPath)) w := by
  refine Amid.bind (serves_installScopeFontInner hw) fun code v hv => ?_
  by_cases hcode : code = .ok
  · refine Serves.done ((concerns_install caller env fd scope srcPath).placed srcPath)
      (hv hcode) fun v hv _ _ _ _ heq _ => ?_
    obtain ⟨rfl, rfl, rfl, rfl, rfl⟩ := Request.installScopeFont.inj heq
    exact hv.2 rfl
  · exact Amid.pure fun _ _ _ _ _ _ _ h => absurd (value_ok h) hcode

theorem fair_start {o : Op} (ho : tame o) (hlands : landsAside .cleanupAppScopeFontsOnStart o) :
    Fair .cleanupAppScopeFontsOnStart o where
  tame := ho
  spares _ h := by cases h
  rests _ h _ := by cases h
  lands := hlands

theorem start_routine (u : Int) :
    RoutinePermits (fun _ _ => True) (Fair .cleanupAppScopeFontsOnStart) u where
  removal op _ := fair_start trivial (by cases op <;> trivial)
  config op hop := fair_start (by cases op <;> trivial) trivial
  limit := fair_start trivial trivial
  publish _ := fair_start trivial trivial

theorem serves_start (hw : Settled w) :
    Serves .cleanupAppScopeFontsOnStart (FontManagerServer.program .cleanupAppScopeFontsOnStart)
      (fun _ => Settled) w :=
  Serves.routinely (settled_stable _) hw
    (always_bind (RoutinePermits.cleanupAppScopeFontsOnStart start_routine (fair_start trivial trivial))
      fun _ => always_pure _)

theorem serves_off (caller : Caller) (hw : Settled w) :
    Serves (.offFontObserver caller) (FontManagerServer.program (.offFontObserver caller))
      (fun _ => Settled) w := by
  rw [FontManagerServer.program, FontManagerServer.offFontObserverInner]
  cases hc : caller.updateScopeFont with
  | false => exact Serves.done (settled_stable _) hw fun _ hv => hv
  | true =>
    have hq : sweeps (.offFontObserver caller) = some caller.tokenId := by simp [sweeps, hc]
    simp only [Bool.not_true, Bool.false_eq_true, if_false]
    rw [unregisterClient_eq]
    exact serves_erase hq _ hw

theorem serves_program (hq : awaited q = true) (hw : Settled w) :
    Serves q (FontManagerServer.program q) (Reported q) w := by
  cases q with
  | onFontObserver caller hasBinder =>
    have hp : always (P := sig) (fun _ _ => True) (Fair (.onFontObserver caller hasBinder))
        (FontManagerServer.onFontObserverInner caller hasBinder) := by
      unfold FontManagerServer.onFontObserverInner
      split
      · exact always_pure _
      · exact always_perform (fair_of_idle trivial trivial)
    refine (Serves.routinely (settled_stable _) hw
      (always_bind hp fun _ => always_pure _)).mono fun _ _ _ _ _ _ _ h => ?_
    cases h
  | offFontObserver caller =>
    refine (serves_off caller hw).mono fun _ _ _ _ _ _ _ h => ?_
    cases h
  | installScopeFont caller env fd scope srcPath => exact serves_install hw
  | clientDied t =>
    have hserves : Serves (.clientDied t) (FontManagerServer.program (.clientDied t))
        (fun _ => Settled) w := by
      rw [FontManagerServer.program, onClientDied_eq]
      exact serves_erase rfl _ hw
    refine hserves.mono fun _ _ _ _ _ _ _ h => ?_
    cases h
  | _ => cases hq

end requests

end LastingFonts
