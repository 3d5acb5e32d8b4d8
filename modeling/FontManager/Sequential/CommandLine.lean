import FontManager.Sequential.CommandErrors
import FontManager.Sequential.LibraryRuns

open FontDefine FontManagerUtils FontManagerKits FontBook Interaction

namespace OhosFontManager

section options

variable {name value : Str} {args : List Str}

-- The first argument that carries the option decides; one at the end without a value does not.
inductive Gives (name : Str) : List Str → Str → Prop
  | flag {value : Str} {rest : List Str} : Gives name (flagForm name :: value :: rest) value
  | equals {value : Str} {rest : List Str} : Gives name ((equalPrefix name ++ value) :: rest) value
  | later {arg value : Str} {rest : List Str} (hflag : arg = flagForm name → rest = [])
      (hequals : ¬ equalPrefix name <+: arg) (h : Gives name rest value) :
      Gives name (arg :: rest) value

theorem equals_ne_flag (name value : Str) : equalPrefix name ++ value ≠ flagForm name := by
  intro h
  have hlength := congrArg List.length h
  simp only [equalPrefix, flagForm, List.length_append, List.length_cons, List.length_nil] at hlength
  omega

theorem parse_of_gives (h : Gives name args value) : parseStringOption name args = value := by
  induction h with
  | flag =>
    rw [parseStringOption, if_pos ⟨rfl, List.cons_ne_nil _ _⟩]
    rfl
  | equals =>
    rw [parseStringOption, if_neg fun hflag => equals_ne_flag _ _ hflag.1,
      if_pos (List.isPrefixOf_iff_prefix.mpr (List.prefix_append _ _)), List.drop_left]
  | later hflag hequals h ih =>
    rw [parseStringOption, if_neg fun hand => hand.2 (hflag hand.1),
      if_neg fun hprefix => hequals (List.isPrefixOf_iff_prefix.mp hprefix), ih]

theorem gives_of_parse (h : parseStringOption name args = value) (hne : value ≠ []) :
    Gives name args value := by
  induction args with
  | nil => exact absurd h.symm hne
  | cons arg rest ih =>
    rw [parseStringOption] at h
    split at h
    · next hflag =>
      obtain ⟨rfl, hrest⟩ := hflag
      obtain ⟨head, tail, rfl⟩ := List.exists_cons_of_ne_nil hrest
      obtain rfl := h
      exact .flag
    · next hflag =>
      split at h
      · next hequals =>
        obtain ⟨tail, rfl⟩ := List.isPrefixOf_iff_prefix.mp hequals
        rw [List.drop_left] at h
        exact h ▸ .equals
      · next hequals =>
        refine .later ?_ (fun hprefix => hequals (List.isPrefixOf_iff_prefix.mpr hprefix)) (ih h)
        intro heq
        by_contra hrest
        exact hflag ⟨heq, hrest⟩

end options

inductive Order where
  | install (path : Str)
  | uninstall (name : Str)

inductive Asks : List Str → Order → Prop
  | install {program path : Str} {args : List Str} (hhelp : helpFlag ∉ args)
      (hgives : Gives "font-path".toList args path) (hne : path ≠ [])
      (hlength : path.length ≤ maxFontPathLen) :
      Asks (program :: installCmd.name :: args) (.install path)
  | uninstall {program name : Str} {args : List Str} (hhelp : helpFlag ∉ args)
      (hgives : Gives "font-name".toList args name) (hne : name ≠ [])
      (hlength : name.length ≤ maxFontNameLen) :
      Asks (program :: uninstallCmd.name :: args) (.uninstall name)

def order : List Str → Option Order
  | _ :: cmdName :: args =>
    if args.elem helpFlag then none
    else if cmdName = installCmd.name then
      if parseStringOption "font-path".toList args = [] ∨
          (parseStringOption "font-path".toList args).length > maxFontPathLen then none
      else some (.install (parseStringOption "font-path".toList args))
    else if cmdName = uninstallCmd.name then
      if parseStringOption "font-name".toList args = [] ∨
          (parseStringOption "font-name".toList args).length > maxFontNameLen then none
      else some (.uninstall (parseStringOption "font-name".toList args))
    else none
  | _ => none

theorem order_of_asks {argv : List Str} {o : Order} (h : Asks argv o) : order argv = some o := by
  cases h with
  | install hhelp hgives hne hlength =>
    rw [order, if_neg (mt List.mem_of_elem_eq_true hhelp), if_pos rfl, parse_of_gives hgives,
      if_neg (not_or.mpr ⟨hne, Nat.not_lt.mpr hlength⟩)]
  | uninstall hhelp hgives hne hlength =>
    rw [order, if_neg (mt List.mem_of_elem_eq_true hhelp), if_neg (by decide), if_pos rfl, parse_of_gives hgives,
      if_neg (not_or.mpr ⟨hne, Nat.not_lt.mpr hlength⟩)]

theorem asks_of_order {argv : List Str} {o : Order} (h : order argv = some o) : Asks argv o := by
  unfold order at h
  split at h
  · split at h
    · cases h
    · next helem =>
      have hhelp : helpFlag ∉ _ := mt List.elem_eq_true_of_mem helem
      split at h
      · next hname =>
        split at h
        · cases h
        · next hbounds =>
          obtain ⟨hne, hlength⟩ := not_or.mp hbounds
          obtain rfl := Option.some.inj h
          exact hname ▸ .install hhelp (gives_of_parse rfl hne) hne (Nat.not_lt.mp hlength)
      · split at h
        · next hname =>
          split at h
          · cases h
          · next hbounds =>
            obtain ⟨hne, hlength⟩ := not_or.mp hbounds
            obtain rfl := Option.some.inj h
            exact hname ▸ .uninstall hhelp (gives_of_parse rfl hne) hne (Nat.not_lt.mp hlength)
        · cases h
  · cases h

namespace Order

def log : Order → Str
  | .install path => "Installing font from path: ".toList ++ path
  | .uninstall name => "Uninstalling font: ".toList ++ name

def data : Order → Json
  | .install path => installData path
  | .uninstall name => uninstallData name

def submit (conn : Connection) : Order → FontTask (Int × Int)
  | .install path => FontManagerKits.installFont conn path
  | .uninstall name => FontManagerKits.uninstallFont conn name

end Order

end OhosFontManager

def Line.succeeded : Line → Bool
  | .info _ => false
  | .response json =>
    match CJson.stringItem json "status".toList with
    | some status => status = "success".toList
    | none => false

def Exit.succeeded (exit : Exit) : Bool := exit.stdout.any Line.succeeded

namespace OhosFontManager

section main

variable {conn : Connection} {argv : List Str} {o : Order}

theorem outputError_failed (info : ErrorInfo) : (outputError info).succeeded = false := rfl

theorem info_failed (status : Int) (lines : List Str) :
    Exit.succeeded ⟨status, lines.map .info⟩ = false := by
  rw [Exit.succeeded, List.any_map, List.any_eq_false]
  intro line _ h
  cases h

theorem cmdHelp_failed (argv : List Str) : (cmdHelp argv).succeeded = false := by
  unfold cmdHelp
  split
  · rfl
  · split
    · rfl
    · exact info_failed 0 _

theorem report_outValue (data : Json) (code : Int) :
    report data (outValue code) =
      if code ≠ fmErrOk then outputError (mapFontError code) else outputSuccess data := rfl

theorem report_succeeded_iff (text : Str) (data : Json) (code : Int) :
    (cliLog text (report data (outValue code))).succeeded = true ↔
      code = FontErrorCode.ok.value := by
  rw [report_outValue]
  split
  · next hfail => exact iff_of_false Bool.false_ne_true hfail
  · next hok => exact iff_of_true rfl (not_not.mp hok)

theorem main_ordered (h : order argv = some o) :
    main conn argv = (do
      let answer ← o.submit conn
      pure (cliLog o.log (report o.data answer))) := by
  cases asks_of_order h with
  | install hhelp hgives hne hlength =>
    have hname : installCmd.name ≠ helpFlag := by decide
    simp only [main]
    rw [if_neg hname, if_neg hhelp]
    change cmdInstall conn _ = _
    simp only [cmdInstall, parse_of_gives hgives]
    rw [if_neg hne, if_neg (Nat.not_lt.mpr hlength)]
    rfl
  | uninstall hhelp hgives hne hlength =>
    have hname : uninstallCmd.name ≠ helpFlag := by decide
    simp only [main]
    rw [if_neg hname, if_neg hhelp]
    change cmdUninstall conn _ = _
    simp only [cmdUninstall, parse_of_gives hgives]
    rw [if_neg hne, if_neg (Nat.not_lt.mpr hlength)]
    rfl

theorem cmdInstall_unasked
    (h : parseStringOption "font-path".toList argv = [] ∨
      (parseStringOption "font-path".toList argv).length > maxFontPathLen) :
    ∃ exit, cmdInstall conn argv = pure exit ∧ exit.succeeded = false := by
  simp only [cmdInstall]
  split
  · exact ⟨_, rfl, outputError_failed _⟩
  · next hne =>
    rw [if_pos (h.resolve_left hne)]
    exact ⟨_, rfl, outputError_failed _⟩

theorem cmdUninstall_unasked
    (h : parseStringOption "font-name".toList argv = [] ∨
      (parseStringOption "font-name".toList argv).length > maxFontNameLen) :
    ∃ exit, cmdUninstall conn argv = pure exit ∧ exit.succeeded = false := by
  simp only [cmdUninstall]
  split
  · exact ⟨_, rfl, outputError_failed _⟩
  · next hne =>
    rw [if_pos (h.resolve_left hne)]
    exact ⟨_, rfl, outputError_failed _⟩

theorem findCommand_cases (name : Str) :
    name = installCmd.name ∧ findCommand name = some installCmd ∨
      name = uninstallCmd.name ∧ findCommand name = some uninstallCmd ∨
      name ≠ installCmd.name ∧ name ≠ uninstallCmd.name ∧
        ∀ cmd, findCommand name = some cmd → cmd.handler = .cmdHelp := by
  by_cases hinstall : name = installCmd.name
  · exact Or.inl ⟨hinstall, hinstall ▸ rfl⟩
  · by_cases huninstall : name = uninstallCmd.name
    · exact Or.inr (Or.inl ⟨huninstall, huninstall ▸ rfl⟩)
    · refine Or.inr (Or.inr ⟨hinstall, huninstall, ?_⟩)
      intro cmd hcmd
      have hmem := List.mem_of_find?_eq_some hcmd
      have hname : cmd.name = name := by simpa using List.find?_some hcmd
      simp only [commands, List.mem_cons, List.not_mem_nil, or_false] at hmem
      rcases hmem with rfl | rfl | rfl
      · rfl
      · exact absurd hname.symm hinstall
      · exact absurd hname.symm huninstall

theorem main_unasked (h : order argv = none) :
    ∃ exit, main conn argv = pure exit ∧ exit.succeeded = false := by
  unfold main
  split
  · next program cmdName args =>
    split
    · exact ⟨_, rfl, cmdHelp_failed _⟩
    · split
      · exact ⟨_, rfl, cmdHelp_failed _⟩
      · next hhelp =>
        rw [order, if_neg (mt List.mem_of_elem_eq_true hhelp)] at h
        rcases findCommand_cases cmdName with ⟨rfl, hfind⟩ | ⟨rfl, hfind⟩ | ⟨hinstall, huninstall, hhandler⟩
        · rw [if_pos rfl] at h
          rw [hfind]
          apply cmdInstall_unasked
          by_contra hno
          rw [if_neg hno] at h
          cases h
        · rw [if_neg (by decide), if_pos rfl] at h
          rw [hfind]
          apply cmdUninstall_unasked
          by_contra hno
          rw [if_neg hno] at h
          cases h
        · cases hfind : findCommand cmdName with
          | none => exact ⟨_, rfl, outputError_failed _⟩
          | some cmd =>
            dsimp only
            rw [hhandler cmd hfind]
            exact ⟨_, rfl, cmdHelp_failed _⟩
  · exact ⟨_, rfl, outputError_failed _⟩

end main

end OhosFontManager

namespace OhosFontManager

section library

variable {lib : FontLibrary} {w : World} {conn : Connection}

def sent (conn : Connection) : Order → Option Request
  | .install path =>
    match conn.ipc with
    | .answers => (openPath conn.fs path).map fun opened => .installFont conn.caller conn.env opened.2
    | _ => none
  | .uninstall name =>
    match conn.ipc with
    | .answers => some (.uninstallFont conn.caller name)
    | _ => none

inductive Change (lib : FontLibrary) (conn : Connection) : Order → FontLibrary → Prop
  | installed {path realPath : Str} {fd : Fd} (hopen : openPath conn.fs path = some (realPath, fd)) :
      Change lib conn (.install path)
        (lib.record conn.caller.userId (accept conn.caller.userId (lib.books conn.caller.userId)
          (userFont conn.env fd) (getFullNamesByFd fd)))
  | uninstalled {name : Str} {f : Font} (hf : f ∈ lib.books conn.caller.userId)
      (hname : name ∈ f.record.fullNames) :
      Change lib conn (.uninstall name)
        (lib.record conn.caller.userId
          (discard conn.caller.userId (lib.books conn.caller.userId) f name))

theorem record_ne {u : Int} {o : Outcome} (h : o.book.length ≠ (lib.books u).length) :
    lib.record u o ≠ lib := by
  intro heq
  apply h
  have hself : (lib.record u o).books u = o.book := FontLibrary.books_self
  rw [← hself, heq]

theorem Change.changes {o : Order} {lib' : FontLibrary} (h : Change lib conn o lib') :
    lib' ≠ lib := by
  cases h with
  | installed hopen =>
    apply record_ne
    simp only [accept, List.length_append, List.length_singleton]
    omega
  | @uninstalled name f hf hname =>
    apply record_ne
    intro hlength
    have hall := List.length_filter_eq_length_iff.mp hlength f hf
    simp at hall

theorem record_refuse (u : Int) (code : FontErrorCode) :
    lib.record u (refuse (lib.books u) code) = lib := by
  simp only [FontLibrary.record, refuse, Function.update_eq_self, List.append_nil]

-- What a request of the tool comes to in the library: a refusal, or the change it asks for.
def Served (lib : FontLibrary) (conn : Connection) (o : Order) (r : Int × FontLibrary) : Prop :=
  r.1 ≠ FontErrorCode.ok.value ∧ r.2 = lib ∨ r.1 = FontErrorCode.ok.value ∧ Change lib conn o r.2

theorem served_refuse {o : Order} {code : FontErrorCode} (hcode : code.value ≠ FontErrorCode.ok.value) :
    Served lib conn o (code.value, lib) := Or.inl ⟨hcode, rfl⟩

theorem served_refused {o : Order} {code : FontErrorCode}
    (hcode : code.value ≠ FontErrorCode.ok.value) :
    Served lib conn o ((refuse (lib.books conn.caller.userId) code).code.value,
      lib.record conn.caller.userId (refuse (lib.books conn.caller.userId) code)) := by
  rw [record_refuse]
  exact served_refuse hcode

theorem install_served {path realPath : Str} {fd : Fd}
    (hopen : openPath conn.fs path = some (realPath, fd)) :
    Served lib conn (.install path) (lib.step (.installFont conn.caller conn.env fd)) := by
  simp only [FontLibrary.step, Request.errand, Request.gate, FontLibrary.answer]
  split
  · split
    · simp only [FontLibrary.serve, FontLibrary.call, FontBook.step, FontBook.install]
      split
      · exact served_refused (by decide)
      · split
        · exact served_refused (by decide)
        · split
          · exact served_refused (by decide)
          · exact Or.inr ⟨rfl, .installed hopen⟩
    · exact served_refuse (by decide)
  · exact served_refuse (by decide)

theorem uninstall_served (name : Str) :
    Served lib conn (.uninstall name) (lib.step (.uninstallFont conn.caller name)) := by
  simp only [FontLibrary.step, Request.errand, Request.gate, FontLibrary.answer]
  split
  · split
    · simp only [FontLibrary.serve, FontLibrary.call, FontBook.step, FontBook.uninstall]
      split
      · exact served_refused (by decide)
      · split
        · exact served_refused (by decide)
        · next f hfind =>
          split
          · have hnamed := List.find?_some hfind
            simp only [named, List.any_cons, List.any_nil, Bool.or_false] at hnamed
            exact Or.inr ⟨rfl, .uninstalled (List.mem_of_find?_eq_some hfind)
              (KeyedList.has_iff.mp hnamed)⟩
          · exact served_refused (by decide)
    · exact served_refuse (by decide)
  · exact served_refuse (by decide)

theorem sent_served {o : Order} {q : Request} (h : sent conn o = some q) :
    Served lib conn o (lib.step q) := by
  cases o with
  | install path =>
    simp only [sent] at h
    split at h
    · obtain ⟨⟨realPath, fd⟩, hopen, rfl⟩ := Option.map_eq_some_iff.mp h
      exact install_served hopen
    · cases h
  | uninstall name =>
    simp only [sent] at h
    split at h
    · obtain rfl := Option.some.inj h
      exact uninstall_served name
    · cases h

theorem submit_sent {o : Order} {q : Request} (h : sent conn o = some q) :
    o.submit conn = (do
      let reply ← FontManagerServer.program q
      pure (outValue reply)) := by
  cases o with
  | install path =>
    simp only [sent] at h
    split at h
    · next hipc =>
      obtain ⟨⟨realPath, fd⟩, hopen, rfl⟩ := Option.map_eq_some_iff.mp h
      rw [Order.submit, FontManagerKits.installFont, hopen, hipc]
      rfl
    · cases h
  | uninstall name =>
    simp only [sent] at h
    split at h
    · next hipc =>
      obtain rfl := Option.some.inj h
      rw [Order.submit, FontManagerKits.uninstallFont, hipc]
      rfl
    · cases h

theorem submit_unsent {o : Order} (hwork : conn.ipc.Working)
    (h : sent conn o = none) :
    ∃ code : FontErrorCode, code.value ≠ FontErrorCode.ok.value ∧
      o.submit conn = pure (outValue code.value) := by
  cases o with
  | install path =>
    rw [Order.submit, FontManagerKits.installFont]
    cases hopen : openPath conn.fs path with
    | none => exact ⟨.fileNotExists, by decide, rfl⟩
    | some opened =>
      cases hipc : conn.ipc with
      | noService => exact ⟨.installFail, by decide, rfl⟩
      | fails e delivered => exact absurd hipc (hwork e delivered)
      | answers =>
        simp only [sent, hipc, hopen] at h
        cases h
  | uninstall name =>
    rw [Order.submit, FontManagerKits.uninstallFont]
    cases hipc : conn.ipc with
    | noService => exact ⟨.uninstallFail, by decide, rfl⟩
    | fails e delivered => exact absurd hipc (hwork e delivered)
    | answers =>
      simp only [sent, hipc] at h
      cases h

end library

structure Invocation where
  conn : Connection
  argv : List Str

namespace Invocation

def request (inv : Invocation) : Option Request := (order inv.argv).bind (sent inv.conn)

def next (lib : FontLibrary) (inv : Invocation) : FontLibrary :=
  match inv.request with
  | some q => (lib.step q).2
  | none => lib

-- The tool claims success where the library changed, and the change is the one it was asked for.
structure Told (lib : FontLibrary) (inv : Invocation) (exit : Exit) : Prop where
  truthful : exit.succeeded = true ↔ next lib inv ≠ lib
  asked : exit.succeeded = true →
    ∃ o, Asks inv.argv o ∧ Change lib inv.conn o (next lib inv)

def Granted (lib : FontLibrary) : Option Request → Prop
  | some q => lib.Admits q.errand
  | none => True

def Admits (lib : FontLibrary) (inv : Invocation) : Prop :=
  inv.conn.ipc.Working ∧ Granted lib inv.request

section runs

variable {lib : FontLibrary} {w : World} {inv : Invocation} {exit : Exit} {o : Order}

theorem told_unchanged (hexit : exit.succeeded = false) (hnext : next lib inv = lib) :
    Told lib inv exit where
  truthful := iff_of_false (hexit ▸ Bool.false_ne_true) fun hne => hne hnext
  asked h := absurd (hexit.symm.trans h) Bool.false_ne_true

theorem told_served {r : Int × FontLibrary} (horder : order inv.argv = some o)
    (hserved : Served lib inv.conn o r) (hnext : next lib inv = r.2) :
    Told lib inv (cliLog o.log (report o.data (outValue r.1))) := by
  rcases hserved with ⟨hcode, hsame⟩ | ⟨hcode, hchange⟩
  · apply told_unchanged _ (hnext.trans hsame)
    rw [Bool.eq_false_iff, ne_eq, report_succeeded_iff]
    exact hcode
  · rw [← hnext] at hchange
    constructor
    · rw [report_succeeded_iff]
      exact iff_of_true hcode hchange.changes
    · intro _
      exact ⟨o, asks_of_order horder, hchange⟩

theorem main_told (h : FontLibrary.Kept lib w) (hadmits : Admits lib inv) :
    Ensures (each Faultless) (main inv.conn inv.argv)
      (fun exit w' => Told lib inv exit ∧ FontLibrary.Kept (next lib inv) w') w := by
  obtain ⟨hwork, hgranted⟩ := hadmits
  cases horder : order inv.argv with
  | none =>
    obtain ⟨exit, hmain, hfailed⟩ :
        ∃ exit, main inv.conn inv.argv = pure exit ∧ exit.succeeded = false := main_unasked horder
    have hnext : next lib inv = lib := by rw [next, request, horder, Option.bind_none]
    rw [hmain, hnext]
    exact Ensures.pure ⟨told_unchanged hfailed hnext, h⟩
  | some o =>
    rw [main_ordered horder]
    cases hsent : sent inv.conn o with
    | none =>
      obtain ⟨code, hcode, hsubmit⟩ := submit_unsent hwork hsent
      have hnext : next lib inv = lib := by rw [next, request, horder, Option.bind_some, hsent]
      rw [hsubmit, hnext]
      exact Ensures.pure ⟨told_served horder (served_refuse hcode) hnext, h⟩
    | some q =>
      have hrequest : inv.request = some q := by rw [request, horder, Option.bind_some, hsent]
      have hnext : next lib inv = (lib.step q).2 := by rw [next, hrequest]
      rw [hrequest] at hgranted
      rw [submit_sent hsent, hnext]
      apply Ensures.bind
      apply Ensures.bind
      apply (FontLibrary.request_kept h q hgranted).mono
      rintro reply w' ⟨rfl, hkept⟩
      exact Ensures.pure (Ensures.pure
        ⟨told_served horder (sent_served hsent) hnext, hkept⟩)

def tool : Service sig Invocation Exit World Io := ⟨semantics, fun inv => main inv.conn inv.argv⟩

def Admitted : FontLibrary → List Invocation → Prop
  | _, [] => True
  | lib, inv :: rest => Admits lib inv ∧ Admitted (next lib inv) rest

def Session : FontLibrary → List Invocation → List Exit → Prop
  | _, [], exits => exits = []
  | _, _ :: _, [] => False
  | lib, inv :: rest, exit :: exits => Told lib inv exit ∧ Session (next lib inv) rest exits

end runs

theorem session_truthful {lib : FontLibrary} {w : World} (es : List (Invocation × List Io))
    (h : FontLibrary.Kept lib w) (hadmitted : Admitted lib (es.map Prod.fst))
    (hios : ∀ e ∈ es, ∀ io ∈ e.2, Faultless io) :
    Session lib (es.map Prod.fst) (tool.replies w es) ∧
      FontLibrary.Kept ((es.map Prod.fst).foldl next lib) (tool.after w es) := by
  induction es generalizing lib w with
  | nil => exact ⟨rfl, h⟩
  | cons e es ih =>
    obtain ⟨hadmits, hrest⟩ := hadmitted
    obtain ⟨htold, hkept⟩ := Program.run_of_wp semantics Faultless ⟨rfl, rfl, rfl⟩
      (main_told h hadmits) (hios e List.mem_cons_self)
    obtain ⟨hsession, hafter⟩ := ih hkept hrest fun d hd => hios d (List.mem_cons_of_mem e hd)
    exact ⟨⟨htold, hsession⟩, hafter⟩

section session

instance (ipc : Ipc) : Decidable ipc.Working :=
  match ipc with
  | .noService => isTrue fun _ _ h => nomatch h
  | .fails e delivered => isFalse fun h => h e delivered rfl
  | .answers => isTrue fun _ _ h => nomatch h

instance (lib : FontLibrary) : (q : Option Request) → Decidable (Granted lib q)
  | some q => inferInstanceAs (Decidable (lib.Admits q.errand))
  | none => instDecidableTrue

instance (lib : FontLibrary) (inv : Invocation) : Decidable (Admits lib inv) :=
  inferInstanceAs (Decidable (_ ∧ _))

instance decidableAdmitted : (lib : FontLibrary) → (invs : List Invocation) →
    Decidable (Admitted lib invs)
  | _, [] => instDecidableTrue
  | lib, inv :: rest =>
    have := decidableAdmitted (next lib inv) rest
    inferInstanceAs (Decidable (_ ∧ _))

def evening : List Invocation :=
  [⟨shell true 100 0, installLine fontFile⟩, ⟨shell true 100 1, installLine fontFile⟩,
    ⟨shell false 100 2, uninstallLine⟩, ⟨shell true 100 3, uninstallLine⟩]

theorem evening_truthful :
    Session (FontLibrary.opened [100]) evening (tool.replies device (evening.map fun i => (i, []))) ∧
      FontLibrary.Kept (evening.foldl next (FontLibrary.opened [100]))
        (tool.after device (evening.map fun i => (i, []))) := by
  have hinvs : (evening.map fun i => (i, ([] : List Io))).map Prod.fst = evening := rfl
  have hsession := session_truthful (evening.map fun i => (i, []))
    (FontLibrary.kept_opened [100]) (by rw [hinvs]; decide) (by simp)
  rw [hinvs] at hsession
  exact hsession

end session

end Invocation

end OhosFontManager
