import FontManager.Sequential.ErrorCodes
import FontManager.Source.FrontEnds

open FontDefine FontManagerUtils FontManager FontManagerKits FrontEnd Interaction
  Interaction.Program

section client

def Ipc.ofAvailable (available : Bool) : Ipc := if available then .answers else .noService

variable (fs : FileSystem) (available : Bool) (caller : Caller) (env : Env)

theorem client_installScopeFont (fontPath : Str) (scope : Int) :
    FontManagerClient.installScopeFont fs available caller env fontPath scope =
      FontManagerKits.installScopeFont ⟨fs, .ofAvailable available, caller, env⟩ fontPath scope := by
  rw [FontManagerClient.installScopeFont, FontManagerKits.installScopeFont, openPath]
  cases FontManagerClient.pathToRealPath fs fontPath with
  | none => rfl
  | some realPath =>
    dsimp only [Option.bind_some]
    cases fs.openFile realPath with
    | none => rfl
    | some fd =>
      cases available with
      | false => rfl
      | true =>
        exact (bind_assoc (FontManagerServer.installScopeFontInner caller env fd scope realPath)
          (fun code => pure code.value) fun reply => pure (outValue reply)).symm

theorem client_uninstallScopeFont (srcPath : Str) :
    FontManagerClient.uninstallScopeFont available caller srcPath =
      FontManagerKits.uninstallScopeFont ⟨fs, .ofAvailable available, caller, env⟩ srcPath := by
  cases available with
  | false => rfl
  | true =>
    exact (bind_assoc (FontManagerServer.uninstallScopeFontInner caller srcPath)
      (fun code => pure code.value) fun reply => pure (outValue reply)).symm

theorem client_getFontScope (srcPath : Str) :
    FontManagerClient.getFontScope available caller srcPath 0 =
      FontManagerKits.getFontScope ⟨fs, .ofAvailable available, caller, env⟩ srcPath := by
  cases available with
  | false => rfl
  | true =>
    rw [FontManagerClient.getFontScope, FontManagerKits.getFontScope, if_pos rfl]
    congr 1
    funext scope
    rw [scopeAnswer]
    split <;> rfl

end client

namespace FrontEnd

def Told (code : Int) : Prop := (errorMsg.find code).isSome

theorem text_agrees_iff (code : Int) :
    errorMsg.text systemErrorMsg code = errorMsg.text otherMsg code ↔ Told code := by
  unfold Told ErrMsgMap.text
  cases errorMsg.find code with
  | none => exact ⟨fun h => absurd h (by decide), fun h => nomatch h⟩
  | some text => exact ⟨fun _ => rfl, fun _ => rfl⟩

def MigrationTold (code : Int) : Prop := (FontManagerAddon.dataMigrationErrMsg.find code).isSome

theorem find_mem {m : ErrMsgMap} {code : Int} {text : Str} (h : m.find code = some text) :
    ∃ c, (c, text) ∈ m ∧ c.value = code := by
  obtain ⟨row, hrow, rfl⟩ := Option.map_eq_some_iff.mp h
  have hcode := List.find?_some hrow
  exact ⟨row.1, List.mem_of_find?_eq_some hrow, of_decide_eq_true hcode⟩

-- Only the codes of the shorter table have the text that stands in for the others there.
theorem other_texts : ∀ row ∈ errorMsg, FontManagerAddon.dataMigrationErrMsg.find row.1.value = none →
    row.2 ≠ systemErrorMsg := by decide

theorem migration_text_agrees_iff (code : Int) :
    FontManagerAddon.dataMigrationErrMsg.text systemErrorMsg code = errorMsg.text otherMsg code ↔
      MigrationTold code := by
  unfold MigrationTold ErrMsgMap.text
  cases h : FontManagerAddon.dataMigrationErrMsg.find code with
  | none =>
    refine iff_of_false (fun htext => ?_) Bool.false_ne_true
    cases h' : errorMsg.find code with
    | none =>
      rw [h'] at htext
      exact absurd htext (by decide)
    | some text =>
      rw [h'] at htext
      obtain ⟨c, hc, rfl⟩ := find_mem h'
      exact other_texts _ hc h htext.symm
  | some text =>
    refine iff_of_true ?_ rfl
    obtain ⟨c, hc, rfl⟩ := find_mem h
    simp only [FontManagerAddon.dataMigrationErrMsg, List.mem_cons, Prod.mk.injEq,
      List.not_mem_nil, or_false] at hc
    rcases hc with ⟨rfl, rfl⟩ | ⟨rfl, rfl⟩ | ⟨rfl, rfl⟩ | ⟨rfl, rfl⟩ <;> rfl

theorem told_of_coded {codes : List FontErrorCode} {code : Int} (h : Coded codes code)
    (hcode : code ≠ FontErrorCode.ok.value) : Told code := by
  obtain ⟨c, -, rfl⟩ := h
  cases c with
  | ok => exact absurd rfl hcode
  | _ => exact rfl

end FrontEnd

section settles

variable {answer : Int × Int} {code : Int}

theorem rejected_inj {e e' : BusinessError} : Settled.rejected e = .rejected e' ↔ e = e' :=
  ⟨Settled.rejected.inj, congrArg _⟩

theorem scope_error_agrees (code : Int) :
    FontManagerAddon.setErrorMsg (FontManagerAddon.getScopeFontErrMsg code) code =
      FontManagerAni.throwAniError code ↔ Told code := by
  rw [FontManagerAddon.setErrorMsg, FontManagerAni.throwAniError, rejected_inj,
    FontManagerAddon.getScopeFontErrMsg, BusinessError.mk.injEq, and_iff_right rfl, Option.some_inj,
    text_agrees_iff]

theorem settleScope_agrees (h : Answered installScopeCodes answer ∨ Answered uninstallScopeCodes answer) :
    FontManagerAddon.settleScope answer = FontManagerAni.settleScope answer := by
  have hret : answer.1 = FontErrorCode.ok.value := h.elim And.left And.left
  have htold : answer.2 ≠ FontErrorCode.ok.value → Told answer.2 := by
    intro hne
    rcases h with h | h
    · exact told_of_coded h.2 hne
    · exact told_of_coded h.2 hne
  rw [FontManagerAddon.settleScope, FontManagerAni.settleScope, if_neg (not_not.mpr hret),
    if_neg (not_not.mpr hret)]
  split
  · next hne => exact (scope_error_agrees answer.2).mpr (htold hne)
  · rfl

theorem settleScope_failed (e : IpcError) :
    FontManagerAddon.settleScope (e.code, 0) = FontManagerAni.settleScope (e.code, 0) ↔
      Told e.code := by
  rw [FontManagerAddon.settleScope, FontManagerAni.settleScope, if_pos e.raised, if_pos e.raised,
    scope_error_agrees]

theorem settleQuery_agrees (answer : Int × Int) :
    FontManagerAddon.settleQuery answer = FontManagerAni.settleQuery answer ↔
      answer.1 = FontErrorCode.ok.value ∨ Told answer.1 := by
  rw [FontManagerAddon.settleQuery, FontManagerAni.settleQuery]
  split
  · next hne => rw [scope_error_agrees, or_iff_right hne]
  · next heq => exact ⟨fun _ => Or.inl (not_not.mp heq), fun _ => rfl⟩

theorem settleObserver_agrees (ret : Int) :
    FontManagerAddon.settleObserver ret = FontManagerAni.settleObserver ret ↔
      ret = FontErrorCode.ok.value ∨ Told ret := by
  rw [FontManagerAddon.settleObserver, FontManagerAni.settleObserver]
  split
  · next hne => rw [scope_error_agrees, or_iff_right hne]
  · next heq => exact ⟨fun _ => Or.inl (not_not.mp heq), fun _ => rfl⟩

-- One switch of the first binding against the table of the other.
structure Matches (table : ErrMsgMap) (abnormal : FontErrorCode) (codes : List FontErrorCode) :
    Prop where
  agrees : ∀ c ∈ codes, c ≠ .ok → table.text otherMsg c.value = errorMsg.text otherMsg c.value
  abnormal_mem : abnormal ∈ codes
  abnormal_ne : abnormal.value ≠ FontErrorCode.ok.value

theorem install_matches : Matches FontManagerAddon.installErrMsg .installFail installCodes where
  agrees := by
    intro c hc hne
    cases c <;> first | rfl | exact absurd rfl hne | exact absurd hc (by decide)
  abnormal_mem := by decide
  abnormal_ne := by decide

theorem uninstall_matches :
    Matches FontManagerAddon.uninstallErrMsg .uninstallFail uninstallCodes where
  agrees := by
    intro c hc hne
    cases c <;> first | rfl | exact absurd rfl hne | exact absurd hc (by decide)
  abnormal_mem := by decide
  abnormal_ne := by decide

section fonts

variable {table : ErrMsgMap} {abnormal : FontErrorCode} {codes : List FontErrorCode}

theorem ne_ok {c : FontErrorCode} (h : c.value ≠ FontErrorCode.ok.value) : c ≠ .ok :=
  fun heq => h (congrArg _ heq)

theorem addon_answered (out : Int) :
    FontManagerAddon.settleFont table abnormal (FontErrorCode.ok.value, out) =
      if out ≠ FontErrorCode.ok.value then .rejected ⟨out, some (table.text otherMsg out)⟩
      else .resolved (some out) := rfl

theorem ani_answered (out : Int) :
    FontManagerAni.settleFont (FontErrorCode.ok.value, out) =
      if out ≠ FontErrorCode.ok.value then .rejected ⟨out, some (errorMsg.text otherMsg out)⟩
      else .resolved (some out) := rfl

theorem settleFont_agrees (hm : Matches table abnormal codes) (h : Answered codes answer) :
    FontManagerAddon.settleFont table abnormal answer = FontManagerAni.settleFont answer := by
  obtain ⟨ret, out⟩ := answer
  obtain ⟨rfl, c, hc, rfl⟩ := h
  rw [addon_answered, ani_answered]
  split
  · next hne => rw [hm.agrees c hc (ne_ok hne)]
  · rfl

theorem addon_failed (hm : Matches table abnormal codes) (e : IpcError) :
    FontManagerAddon.settleFont table abnormal (e.code, 0) =
      .rejected ⟨abnormal.value, some (errorMsg.text otherMsg abnormal.value)⟩ := by
  rw [← hm.agrees abnormal hm.abnormal_mem (ne_ok hm.abnormal_ne)]
  simp only [FontManagerAddon.settleFont]
  rw [if_pos e.raised, if_pos hm.abnormal_ne, FontManagerAddon.setErrorMsg]

theorem ani_failed (e : IpcError) :
    FontManagerAni.settleFont (e.code, 0) =
      .rejected ⟨e.code, some (errorMsg.text otherMsg e.code)⟩ :=
  if_pos e.raised

theorem settleFont_failed (hm : Matches table abnormal codes) (e : IpcError) :
    FontManagerAddon.settleFont table abnormal (e.code, 0) = FontManagerAni.settleFont (e.code, 0) ↔
      e.code = abnormal.value := by
  rw [addon_failed hm, ani_failed, rejected_inj, BusinessError.mk.injEq]
  constructor
  · intro h
    exact h.1.symm
  · intro h
    rw [h]
    exact ⟨rfl, rfl⟩

end fonts

end settles

section answers

variable {conn : Connection} {e : IpcError} {delivered : Bool}

section transact

variable {P : PFunctor.{0, 0}} {W : Type} {m : Semantics P W Io}

theorem transact_fails (h : conn.ipc = .fails e delivered) (absent : Int × Int)
    (task : Program P Int) (answer : Int → Int × Int) :
    Yields m (transact conn.ipc absent task answer) (· = (e.code, 0)) := by
  rw [h, transact]
  split
  · exact Yields.after fun _ => Yields.pure rfl
  · exact Yields.pure rfl

theorem request_fails {absent : FontErrorCode} {task : Program P Int} (e : IpcError)
    (delivered : Bool) (h : conn.ipc = .fails e delivered) :
    Yields m (request conn.ipc absent task) (· = e.code) :=
  (transact_fails h _ _ _).map fun _ heq => congrArg Prod.fst heq

end transact

theorem ipc_cases (conn : Connection) :
    conn.ipc.Working ∨ ∃ e delivered, conn.ipc = .fails e delivered := by
  unfold Ipc.Working
  cases conn.ipc with
  | noService => exact Or.inl fun _ _ h => nomatch h
  | fails e delivered => exact Or.inr ⟨e, delivered, rfl⟩
  | answers => exact Or.inl fun _ _ h => nomatch h

def FailsWith (conn : Connection) (e : IpcError) : Prop := ∃ delivered, conn.ipc = .fails e delivered

section agreement

variable {P : PFunctor.{0, 0}} {W : Type} {m : Semantics P W Io} {s : W} {ios : List Io}

theorem run_map_agrees {α β : Type} {f g : α → β} {p : Program P α} {c : Prop}
    (h : f (p.run m s ios).1 = g (p.run m s ios).1 ↔ c) :
    ((p >>= fun a => pure (f a)).run m s ios = (p >>= fun a => pure (g a)).run m s ios) ↔ c := by
  rw [run_map, run_map, Prod.mk.injEq, and_iff_left rfl]
  exact h

theorem run_agrees {α : Type} {p : Program P α} {f g : α → Settled} {S : α → Prop}
    {failed : IpcError → α} {C : IpcError → Prop} (hwork : conn.ipc.Working → Yields m p S)
    (hfails : ∀ e delivered, conn.ipc = .fails e delivered → Yields m p (· = failed e))
    (hS : ∀ a, S a → f a = g a) (hC : ∀ e, f (failed e) = g (failed e) ↔ C e) :
    ((p >>= fun a => pure (f a)).run m s ios = (p >>= fun a => pure (g a)).run m s ios) ↔
      ∀ e, FailsWith conn e → C e := by
  apply run_map_agrees
  rcases ipc_cases conn with hworking | ⟨e, delivered, hipc⟩
  · constructor
    · rintro - e ⟨delivered, hipc⟩
      exact absurd hipc (hworking e delivered)
    · intro _
      exact hS _ ((hwork hworking).run s ios)
  · have hresult := (hfails e delivered hipc).run s ios
    rw [hresult, hC]
    constructor
    · rintro hc e' ⟨delivered', hipc'⟩
      obtain ⟨rfl, -⟩ := Ipc.fails.inj (hipc.symm.trans hipc')
      exact hc
    · intro hall
      exact hall e ⟨delivered, hipc⟩

end agreement

variable (conn) (w : World) (ios : List Io)

def Opens (conn : Connection) (path : Option Str) : Prop :=
  (openPath conn.fs (getString path)).isSome

def NamelessAlike (conn : Connection) : Prop :=
  match conn.ipc with
  | .noService => False
  | .fails e _ => e.code = FontErrorCode.uninstallFileNotExists.value
  | .answers => conn.caller.updateFont = true ∧ 0 ≤ conn.caller.userId

-- The second binding hands the observer to the service, which never answers with a parameter error.
def ObservedAlike (conn : Connection) (w : World) (ios : List Io) : Prop :=
  ∃ e delivered, conn.ipc = .fails e delivered ∧ e.code = FontErrorCode.invalidParam.value ∧
    ((FontManagerKits.onFontObserver conn).run semantics w ios).2 = w

def scopeReply (url : Option Str) : Int :=
  ((FontManagerKits.getFontScope conn (getString url)).run semantics w ios).1.1

def Alike : ApiCall → Prop
  | .installFont path =>
    Opens conn path → ∀ e, FailsWith conn e → e.code = FontErrorCode.installFail.value
  | .uninstallFont fullName =>
    if getString fullName = [] then NamelessAlike conn
    else ∀ e, FailsWith conn e → e.code = FontErrorCode.uninstallFail.value
  | .installScopeFont url _ =>
    getString url ≠ [] → Opens conn url → ∀ e, FailsWith conn e → Told e.code
  | .uninstallScopeFont url => getString url ≠ [] → ∀ e, FailsWith conn e → Told e.code
  | .getFontScope url =>
    getString url ≠ [] → scopeReply conn w ios url = FontErrorCode.ok.value ∨
      Told (scopeReply conn w ios url)
  | .onFontObserver (some .function) => ∀ e, FailsWith conn e → Told e.code
  | .onFontObserver (some .other) => ObservedAlike conn w ios
  | .onFontObserver _ => True
  | .offFontObserver => ∀ e, FailsWith conn e → Told e.code

end answers

section calls

variable {conn : Connection} {w : World} {ios : List Io}

theorem installFont_closed {path : Str} (h : openPath conn.fs path = none) :
    FontManagerKits.installFont conn path = pure (outValue FontErrorCode.fileNotExists.value) := by
  rw [FontManagerKits.installFont, h]

theorem installScopeFont_closed {path : Str} {scope : Int} (h : openPath conn.fs path = none) :
    FontManagerKits.installScopeFont conn path scope =
      pure (outValue FontErrorCode.fileNotExists.value) := by
  rw [FontManagerKits.installScopeFont, h]

theorem installFont_fails {path : Str} (hopens : (openPath conn.fs path).isSome) (e : IpcError)
    (delivered : Bool) (h : conn.ipc = .fails e delivered) :
    Yields semantics (FontManagerKits.installFont conn path) (· = (e.code, 0)) := by
  obtain ⟨opened, hopened⟩ := Option.isSome_iff_exists.mp hopens
  rw [FontManagerKits.installFont, hopened]
  exact transact_fails h _ _ _

theorem installScopeFont_fails {path : Str} {scope : Int}
    (hopens : (openPath conn.fs path).isSome) (e : IpcError) (delivered : Bool)
    (h : conn.ipc = .fails e delivered) :
    Yields semantics (FontManagerKits.installScopeFont conn path scope) (· = (e.code, 0)) := by
  obtain ⟨opened, hopened⟩ := Option.isSome_iff_exists.mp hopens
  rw [FontManagerKits.installScopeFont, hopened]
  exact transact_fails h _ _ _

theorem not_opens {path : Option Str} (h : openPath conn.fs (getString path) = none) :
    ¬ Opens conn path := by
  intro hopens
  rw [Opens, h] at hopens
  cases hopens

theorem installFont_alike (path : Option Str) :
    (FontManagerAddon.execute conn (.installFont path)).run semantics w ios =
      (FontManagerAni.execute conn (.installFont path)).run semantics w ios ↔
      Alike conn w ios (.installFont path) := by
  simp only [FontManagerAddon.execute, FontManagerAni.execute, Alike]
  split
  · next hempty =>
    have hclosed : openPath conn.fs (getString path) = none := by
      rw [hempty]
      rfl
    rw [installFont_closed hclosed]
    exact iff_of_true rfl fun hopens => absurd hopens (not_opens hclosed)
  · cases hopen : openPath conn.fs (getString path) with
    | none =>
      rw [installFont_closed hopen]
      exact iff_of_true rfl fun hopens => absurd hopens (not_opens hopen)
    | some opened =>
      have hopens : Opens conn path := by
        rw [Opens, hopen]
        rfl
      rw [forall_prop_of_true hopens]
      exact run_agrees (fun hwork => installFont_yields hwork _) (installFont_fails hopens)
        (fun _ => settleFont_agrees install_matches) (settleFont_failed install_matches)

def namelessCode (caller : Caller) : FontErrorCode :=
  if !caller.updateFont then .noPermission
  else if caller.userId < 0 then .uninstallFail
  else .uninstallFileNotExists

theorem uninstall_nameless (caller : Caller) :
    FontManagerServer.program (.uninstallFont caller []) = pure (namelessCode caller).value := by
  rw [FontManagerServer.program, FontManagerServer.uninstallFontInner, namelessCode]
  split
  · rfl
  · split <;> rfl

def namelessAnswer (conn : Connection) : Int × Int :=
  match conn.ipc with
  | .noService => outValue FontErrorCode.uninstallFail.value
  | .fails e _ => (e.code, 0)
  | .answers => outValue (namelessCode conn.caller).value

theorem uninstallFont_nameless :
    (FontManagerKits.uninstallFont conn []).run semantics w ios = (namelessAnswer conn, w) := by
  rw [FontManagerKits.uninstallFont, uninstall_nameless, namelessAnswer]
  cases conn.ipc with
  | noService => rfl
  | fails e delivered => cases delivered <;> rfl
  | answers => rfl

def nameless : Settled :=
  FontManagerAddon.setErrorMsg "The font file does not exist.".toList
    FontErrorCode.uninstallFileNotExists.value

theorem nameless_settled (conn : Connection) :
    nameless = FontManagerAni.settleFont (namelessAnswer conn) ↔ NamelessAlike conn := by
  rw [namelessAnswer, NamelessAlike]
  cases conn.ipc with
  | noService =>
    dsimp only
    exact iff_of_false (by decide) id
  | fails e delivered =>
    dsimp only
    rw [ani_failed, nameless, FontManagerAddon.setErrorMsg, rejected_inj, BusinessError.mk.injEq]
    constructor
    · intro h
      exact h.1.symm
    · intro h
      rw [h]
      exact ⟨rfl, rfl⟩
  | answers =>
    dsimp only [namelessCode]
    cases conn.caller.updateFont with
    | false =>
      rw [if_pos (by decide)]
      exact iff_of_false (by decide) fun h => nomatch h.1
    | true =>
      rw [if_neg (by decide)]
      split
      · next hneg => exact iff_of_false (by decide) fun h => absurd h.2 (Int.not_le.mpr hneg)
      · next hneg => exact iff_of_true (by decide) ⟨rfl, Int.not_lt.mp hneg⟩

theorem uninstallFont_alike (fullName : Option Str) :
    (FontManagerAddon.execute conn (.uninstallFont fullName)).run semantics w ios =
      (FontManagerAni.execute conn (.uninstallFont fullName)).run semantics w ios ↔
      Alike conn w ios (.uninstallFont fullName) := by
  simp only [FontManagerAddon.execute, FontManagerAni.execute, Alike]
  split
  · next hempty =>
    rw [hempty, run_map, uninstallFont_nameless]
    change (nameless, w) = _ ↔ _
    rw [Prod.mk.injEq, and_iff_left rfl]
    exact nameless_settled conn
  · exact run_agrees (fun hwork => uninstallFont_yields hwork _)
      (fun e delivered h => transact_fails h _ _ _) (fun _ => settleFont_agrees uninstall_matches)
      (settleFont_failed uninstall_matches)

theorem installScopeFont_alike (url : Option Str) (scope : Int) :
    (FontManagerAddon.execute conn (.installScopeFont url scope)).run semantics w ios =
      (FontManagerAni.execute conn (.installScopeFont url scope)).run semantics w ios ↔
      Alike conn w ios (.installScopeFont url scope) := by
  simp only [FontManagerAddon.execute, FontManagerAni.execute, Alike]
  split
  · next hempty => exact iff_of_true rfl fun hne => absurd hempty hne
  · next hne =>
    rw [forall_prop_of_true hne]
    cases hopen : openPath conn.fs (getString url) with
    | none =>
      rw [installScopeFont_closed hopen]
      exact iff_of_true rfl fun hopens => absurd hopens (not_opens hopen)
    | some opened =>
      have hopens : Opens conn url := by
        rw [Opens, hopen]
        rfl
      rw [forall_prop_of_true hopens]
      exact run_agrees (fun hwork => installScopeFont_yields hwork _ _)
        (installScopeFont_fails hopens) (fun _ h => settleScope_agrees (Or.inl h))
        settleScope_failed

theorem uninstallScopeFont_alike (url : Option Str) :
    (FontManagerAddon.execute conn (.uninstallScopeFont url)).run semantics w ios =
      (FontManagerAni.execute conn (.uninstallScopeFont url)).run semantics w ios ↔
      Alike conn w ios (.uninstallScopeFont url) := by
  simp only [FontManagerAddon.execute, FontManagerAni.execute, Alike]
  split
  · next hempty => exact iff_of_true rfl fun hne => absurd hempty hne
  · next hne =>
    rw [forall_prop_of_true hne]
    exact run_agrees (fun hwork => uninstallScopeFont_yields hwork _)
      (fun e delivered h => transact_fails h _ _ _) (fun _ h => settleScope_agrees (Or.inr h))
      settleScope_failed

theorem getFontScope_alike (url : Option Str) :
    (FontManagerAddon.execute conn (.getFontScope url)).run semantics w ios =
      (FontManagerAni.execute conn (.getFontScope url)).run semantics w ios ↔
      Alike conn w ios (.getFontScope url) := by
  simp only [FontManagerAddon.execute, FontManagerAni.execute, Alike]
  split
  · next hempty => exact iff_of_true rfl fun hne => absurd hempty hne
  · next hne =>
    rw [forall_prop_of_true hne]
    exact run_map_agrees (settleQuery_agrees _)

theorem observer_alike {codes : List FontErrorCode} {task : FontTask Int}
    (hwork : conn.ipc.Working → Yields semantics task (Coded codes))
    (hfails : ∀ e delivered, conn.ipc = .fails e delivered → Yields semantics task (· = e.code)) :
    ((task >>= fun ret => pure (FontManagerAddon.settleObserver ret)).run semantics w ios =
      (task >>= fun ret => pure (FontManagerAni.settleObserver ret)).run semantics w ios) ↔
      ∀ e, FailsWith conn e → Told e.code := by
  apply run_agrees hwork hfails
  · intro ret hret
    rw [settleObserver_agrees]
    exact or_iff_not_imp_left.mpr (told_of_coded hret)
  · intro e
    rw [settleObserver_agrees, or_iff_right e.raised]

theorem rejected_observer : FontManagerAddon.invalidParam =
    FontManagerAni.throwAniError FontErrorCode.invalidParam.value := rfl

theorem refused_observer_iff {ret : Int} :
    FontManagerAddon.invalidParam = FontManagerAni.settleObserver ret ↔
      ret = FontErrorCode.invalidParam.value := by
  rw [FontManagerAni.settleObserver]
  split
  · rw [rejected_observer, FontManagerAni.throwAniError, FontManagerAni.throwAniError, rejected_inj,
      BusinessError.mk.injEq]
    constructor
    · intro h
      exact h.1.symm
    · intro h
      rw [h]
      exact ⟨rfl, rfl⟩
  · next hok =>
    rw [not_not.mp hok]
    exact iff_of_false (by decide) (by decide)

theorem observed_alike :
    ((pure FontManagerAddon.invalidParam : FontTask Settled).run semantics w ios =
      (FontManagerKits.onFontObserver conn >>= fun ret =>
        pure (FontManagerAni.settleObserver ret)).run semantics w ios) ↔
      ObservedAlike conn w ios := by
  rw [run_map]
  change (FontManagerAddon.invalidParam, w) = _ ↔ _
  rw [Prod.mk.injEq, refused_observer_iff, ObservedAlike]
  rcases ipc_cases conn with hworking | ⟨e, delivered, hipc⟩
  · refine iff_of_false (fun h => ?_) ?_
    · obtain ⟨c, hc, heq⟩ := (onFontObserver_yields hworking).run w ios
      rw [h.1] at heq
      cases c <;> first | exact absurd hc (by decide) | exact absurd heq (by decide)
    · rintro ⟨e, delivered, hipc, -⟩
      exact hworking e delivered hipc
  · have hyields : Yields semantics (FontManagerKits.onFontObserver conn) (· = e.code) :=
      request_fails e delivered hipc
    rw [show (run semantics (FontManagerKits.onFontObserver conn) w ios).1 = e.code from
      hyields.run w ios]
    constructor
    · rintro ⟨hcode, hsame⟩
      exact ⟨e, delivered, hipc, hcode, hsame.symm⟩
    · rintro ⟨e', delivered', hipc', hcode, hsame⟩
      obtain ⟨rfl, -⟩ := Ipc.fails.inj (hipc.symm.trans hipc')
      exact ⟨hcode, hsame.symm⟩

theorem onFontObserver_alike (observer : Option ServiceDied) :
    (FontManagerAddon.execute conn (.onFontObserver observer)).run semantics w ios =
      (FontManagerAni.execute conn (.onFontObserver observer)).run semantics w ios ↔
      Alike conn w ios (.onFontObserver observer) := by
  cases observer with
  | none => exact iff_of_true rfl trivial
  | some property =>
    cases property with
    | function => exact observer_alike onFontObserver_yields request_fails
    | undefined => exact iff_of_true rfl trivial
    | other => exact observed_alike

end calls

section migration

variable {C : Type} {conn : Connection}

def migrationCodes : List FontErrorCode := [.ok, .noPermission, .systemError, .dataMigrationing]

theorem dataMigrationInner_yields (caller : Caller) (listener : C) (id : Nat) :
    Yields (processSemantics C) (FontManagerServer.dataMigrationInner caller listener id)
      (· ∈ migrationCodes) := by
  unfold FontManagerServer.dataMigrationInner
  split
  · exact Yields.pure (by decide)
  · refine Yields.after fun exchanged => ?_
    split
    · refine Yields.after fun posted => ?_
      split
      · exact Yields.pure (by decide)
      · exact Yields.after fun _ => Yields.pure (by decide)
    · exact Yields.pure (by decide)

theorem dataMigration_yields (hwork : conn.ipc.Working) (listener : C) (id : Nat) :
    Yields (processSemantics C) (FontManagerKits.dataMigration conn listener id)
      (Coded migrationCodes) :=
  request_yields hwork (by decide) ((dataMigrationInner_yields conn.caller listener id).map
    fun code hcode => ⟨code, hcode, rfl⟩)

theorem settleMigration_agrees (ret : Int) :
    FontManagerAddon.settleMigration ret = FontManagerAni.settleMigration ret ↔
      ret = FontErrorCode.ok.value ∨ MigrationTold ret := by
  rw [FontManagerAddon.settleMigration, FontManagerAni.settleMigration]
  split
  · next hne =>
    rw [FontManagerAddon.setErrorMsg, FontManagerAni.throwAniError, rejected_inj,
      BusinessError.mk.injEq, and_iff_right rfl, Option.some_inj, or_iff_right hne]
    exact migration_text_agrees_iff ret
  · next heq => exact ⟨fun _ => Or.inl (not_not.mp heq), fun _ => rfl⟩

theorem migration_answer_told {ret : Int} (h : Coded migrationCodes ret) :
    ret = FontErrorCode.ok.value ∨ MigrationTold ret := by
  obtain ⟨c, hc, rfl⟩ := h
  have hall : ∀ c ∈ migrationCodes, c.value = FontErrorCode.ok.value ∨
      (FontManagerAddon.dataMigrationErrMsg.find c.value).isSome = true := by decide
  exact hall c hc

def MigrationAlike (conn : Connection) : Option C → Prop
  | none => False
  | some _ => ∀ e, FailsWith conn e → MigrationTold e.code

theorem dataMigration_alike (listener : Option C) (id : Nat) (s : Process C) (ios : List Io) :
    (FontManagerAddon.dataMigration conn listener id).run (processSemantics C) s ios =
      (FontManagerAni.dataMigration conn listener id).run (processSemantics C) s ios ↔
      MigrationAlike conn listener := by
  cases listener with
  | none =>
    refine iff_of_false (fun h => ?_) not_false
    exact absurd (Settled.rejected.inj (congrArg Prod.fst h)) (by decide)
  | some listener =>
    refine run_agrees (fun hwork => dataMigration_yields hwork listener id) request_fails
      (fun ret hret => (settleMigration_agrees ret).mpr (migration_answer_told hret)) fun e => ?_
    rw [settleMigration_agrees, or_iff_right e.raised]

end migration

theorem bindings_alike_iff (conn : Connection) :
    (∀ (w : World) (ios : List Io) (call : ApiCall),
      (FontManagerAddon.execute conn call).run semantics w ios =
        (FontManagerAni.execute conn call).run semantics w ios ↔ Alike conn w ios call) ∧
    ∀ (C : Type) (listener : Option C) (id : Nat) (s : Process C) (ios : List Io),
      (FontManagerAddon.dataMigration conn listener id).run (processSemantics C) s ios =
        (FontManagerAni.dataMigration conn listener id).run (processSemantics C) s ios ↔
        MigrationAlike conn listener := by
  refine ⟨fun w ios call => ?_, fun C listener id s ios => dataMigration_alike listener id s ios⟩
  cases call with
  | installFont path => exact installFont_alike path
  | uninstallFont fullName => exact uninstallFont_alike fullName
  | installScopeFont url scope => exact installScopeFont_alike url scope
  | uninstallScopeFont url => exact uninstallScopeFont_alike url
  | getFontScope url => exact getFontScope_alike url
  | onFontObserver observer => exact onFontObserver_alike observer
  | offFontObserver => exact observer_alike offFontObserver_yields request_fails
