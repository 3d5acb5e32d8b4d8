import FontManager.Sequential.ScopeCleanup
import FontManager.Source.Client

open FontDefine FontManagerUtils FontLocation FontConfig StoreInvariant ScopeCleanup Interaction
  KeyedList Text CJson

namespace CanonicalKey

def ownedInfo (r : Option FontRecordInfo) (bundleName : Str) (tokenId : Int) : Bool :=
  r.any fun info => FontManager.owns info bundleName tokenId

def scopeReply (r : Option FontRecordInfo) (bundleName : Str) (tokenId : Int) : Int :=
  match r with
  | none => FontErrorCode.scopeFontNotFound.value
  | some info =>
    if FontManager.owns info bundleName tokenId then info.scope
    else FontErrorCode.scopeFontNotFound.value

structure Removed (u : Int) (v : View) (srcPath bundleName : Str) (tokenId : Int)
    (code : FontErrorCode) (w : World) : Prop where
  replied : code = .ok ↔ srcPath ≠ [] ∧
    ownedInfo (RecordStore.findInfo (has Record.urls srcPath) v.records) bundleName tokenId = true
  view : code = .ok → View.Shows u (v.map (List.eraseP (has Record.urls srcPath))) w

section contracts

variable {I : Io → Prop} {u : Int} {v : View} {w : World}

theorem getFontScope_exact (hI : ∀ io, I io → Undisturbed io) (hv : v.Shows u w) (srcPath bundleName : Str) (t : Int) :
    Ensures (each I) (FontManager.getFontScope srcPath bundleName t u)
      (fun code w' => w' = w ∧ code =
        scopeReply (RecordStore.findInfo (has Record.urls srcPath) v.records) bundleName t) w := by
  refine Ensures.bind (Ensures.read hv (fun io hio => (hI io hio).1) (v.edit_getFontRecordByUrl srcPath) ?_)
  cases RecordStore.findInfo (has Record.urls srcPath) v.records with
  | none => exact Ensures.pure ⟨rfl, rfl⟩
  | some info =>
    dsimp only [scopeReply]
    split
    · exact Ensures.pure ⟨rfl, rfl⟩
    · exact Ensures.pure ⟨rfl, rfl⟩

theorem step_delete_reply {srcPath : Str} {info : FontRecordInfo} {io : Io} (hio : Undisturbed io)
    (h : RecordStore.findInfo (has Record.urls srcPath) v.records = some info) :
    (v.step (.deleteScopeFontRecordByUrl srcPath) io).1 = true := by
  obtain ⟨r, hr, -⟩ := Option.map_eq_some_iff.mp h
  rw [View.step_readable hio.1, hio.2]
  cases v with
  | none => cases hr
  | some rs =>
    have hany : rs.any (has Record.urls srcPath) = true :=
      List.any_eq_true.mpr ⟨r, List.mem_of_find?_eq_some hr, List.find?_some hr⟩
    simp [View.edit, RecordStore.edit, RecordStore.deleteFirst, hany, View.apply]

theorem uninstallScopeFont_exact (hI : ∀ io, I io → Undisturbed io) (hp : v.Placed)
    (hv : v.Shows u w) (srcPath bundleName : Str) (t : Int) :
    Ensures (each I) (FontManager.uninstallScopeFont srcPath bundleName t u)
      (Removed u v srcPath bundleName t) w := by
  unfold FontManager.uninstallScopeFont
  by_cases hsrc : srcPath = []
  · rw [if_pos hsrc]
    exact Ensures.pure ⟨by simp [hsrc], by simp⟩
  · rw [if_neg hsrc]
    refine Ensures.bind (Ensures.read hv (fun io hio => (hI io hio).1) (v.edit_getFontRecordByUrl srcPath) ?_)
    cases hf : RecordStore.findInfo (has Record.urls srcPath) v.records with
    | none => exact Ensures.pure ⟨by simp [hf, ownedInfo], by simp⟩
    | some info =>
      obtain ⟨s, hs, hpath⟩ := findInfo_placed hp hf
      dsimp only
      rw [hpath]
      by_cases howns : FontManager.owns info bundleName t = true
      · rw [if_pos howns]
        refine removePlaced_exact hI hs fun w₁ h₁ _ => ?_
        rw [if_pos rfl]
        have hv₁ := hv.frame h₁ (configLoc_not_loc hs)
        refine Ensures.bind (Ensures.config hv₁ fun io w₂ hio _ hv₂ => ?_)
        rw [step_delete_exact v srcPath (hI io hio)] at hv₂
        rw [step_delete_reply (hI io hio) hf, if_pos rfl]
        exact fun _ _ => ⟨by simp [hsrc, hf, ownedInfo, howns], fun _ => hv₂⟩
      · rw [if_neg howns]
        exact Ensures.pure ⟨by simp [hf, ownedInfo, howns], by simp⟩

end contracts

section server

variable {I : Io → Prop} {v : View} {w : World} {caller : Caller}

def admitted (caller : Caller) : Prop :=
  caller.updateScopeFont = true ∧ 0 ≤ caller.userId ∧ caller.bundleName ≠ []

theorem registered_query {t : Int} {Q : Bool → World → Prop} (h : ∀ b, Q b w) :
    Ensures (each I) (FontClientRegistry.perform (.isClientRegistered t)) Q w := fun _ _ => h _

theorem install_admitted {env : Env} {fd : Fd} {scope : Int} {srcPath : Str}
    (hv : v.Shows caller.userId w) :
    Ensures (each I) (FontManagerServer.installScopeFontInner caller env fd scope srcPath)
      (fun code w' => code = .ok → admitted caller ∧ ∃ v', v'.Shows caller.userId w' ∧
        InstallEffect (each I) caller.userId (appSlot env fd (makeAppIdentifier scope caller.tokenId))
          (ScopeFresh (each I) (FontManagerServer.scopeInfo caller fd scope srcPath))
          (Record.ofInfo (installedInfo env (FontManagerServer.scopeInfo caller fd scope srcPath)))
          fd v w code v' w') w := by
  have installed : caller.updateScopeFont = true → ¬ caller.userId < 0 →
      Ensures (each I) (FontManagerServer.installRegistered caller env fd scope srcPath)
        (fun code w' => code = .ok → admitted caller ∧ ∃ v', v'.Shows caller.userId w' ∧
          InstallEffect (each I) caller.userId (appSlot env fd (makeAppIdentifier scope caller.tokenId))
            (ScopeFresh (each I) (FontManagerServer.scopeInfo caller fd scope srcPath))
            (Record.ofInfo (installedInfo env (FontManagerServer.scopeInfo caller fd scope srcPath)))
            fd v w code v' w') w := by
    intro hpermission huser
    unfold FontManagerServer.installRegistered
    by_cases hbundle : caller.bundleName = []
    · rw [if_pos hbundle]
      exact Ensures.pure (by simp)
    · rw [if_neg hbundle]
      exact (@Ensures.installScopeFont (each I) w v (FontManagerServer.scopeInfo caller fd scope srcPath)
        hv env ⟨caller.tokenId, rfl⟩).mono fun code w' h _ =>
          ⟨⟨hpermission, Int.not_lt.mp huser, hbundle⟩, h⟩
  unfold FontManagerServer.installScopeFontInner
  cases hpermission : caller.updateScopeFont with
  | false => exact Ensures.pure (by simp)
  | true =>
    rw [Bool.not_true, if_neg Bool.false_ne_true]
    split
    · exact Ensures.pure (by simp)
    · split
      · exact Ensures.pure (by simp)
      · rename_i huser
        split
        · refine Ensures.bind (registered_query fun b => ?_)
          cases b with
          | false => exact Ensures.pure (by simp)
          | true => exact installed hpermission huser
        · exact installed hpermission huser

theorem scope_admitted (hc : admitted caller) (srcPath : Str) :
    FontManagerServer.getFontScopeInner caller srcPath =
      FontManager.getFontScope srcPath caller.bundleName caller.tokenId caller.userId := by
  rw [FontManagerServer.getFontScopeInner, hc.1, Bool.not_true, if_neg Bool.false_ne_true,
    if_neg (Int.not_lt.mpr hc.2.1), if_neg hc.2.2]

theorem uninstall_admitted (hc : admitted caller) (srcPath : Str) :
    FontManagerServer.uninstallScopeFontInner caller srcPath =
      FontManager.uninstallScopeFont srcPath caller.bundleName caller.tokenId caller.userId := by
  rw [FontManagerServer.uninstallScopeFontInner, hc.1, Bool.not_true, if_neg Bool.false_ne_true,
    if_neg (Int.not_lt.mpr hc.2.1), if_neg hc.2.2]

end server

section client

variable {I : Io → Prop} {v : View} {w : World} {caller : Caller}

theorem value_ok {code : FontErrorCode} : code.value = FontErrorCode.ok.value ↔ code = .ok := by
  cases code <;> decide

theorem client_install (fs : FileSystem) (available : Bool) (env : Env) (p : Str) (scope : Int)
    (hv : v.Shows caller.userId w) :
    Ensures (each I) (FontManagerClient.installScopeFont fs available caller env p scope)
      (fun r w' => r = (FontErrorCode.ok.value, FontErrorCode.ok.value) →
        available = true ∧ admitted caller ∧ ∃ key fd v', fs.realpath (cStr p) = some key ∧
          v'.Shows caller.userId w' ∧
          InstallEffect (each I) caller.userId (appSlot env fd (makeAppIdentifier scope caller.tokenId))
            (ScopeFresh (each I) (FontManagerServer.scopeInfo caller fd scope key))
            (Record.ofInfo (installedInfo env (FontManagerServer.scopeInfo caller fd scope key)))
            fd v w .ok v' w') w := by
  unfold FontManagerClient.installScopeFont
  cases hkey : FontManagerClient.pathToRealPath fs p with
  | none => exact Ensures.pure (by simp [FontErrorCode.value])
  | some key =>
    have hreal : fs.realpath (cStr p) = some key := by
      unfold FontManagerClient.pathToRealPath at hkey
      split at hkey
      · cases hkey
      · split at hkey
        · cases hkey
        · split at hkey
          · cases hkey
          · split at hkey
            · rename_i heq _
              rw [heq, hkey]
            · cases hkey
    dsimp only
    cases fs.openFile key with
    | none => exact Ensures.pure (by simp [FontErrorCode.value])
    | some fd =>
      dsimp only
      cases available with
      | false => exact Ensures.pure (by simp [FontErrorCode.value])
      | true =>
        refine Ensures.bind ((install_admitted hv).mono fun code w' h => Ensures.pure fun hr => ?_)
        obtain rfl := value_ok.mp (congrArg Prod.snd hr)
        obtain ⟨hc, v', hv', heffect⟩ := h rfl
        exact ⟨rfl, hc, key, fd, v', hreal, hv', heffect⟩

theorem client_scope (hI : ∀ io, I io → Undisturbed io) (hc : admitted caller) (hv : v.Shows caller.userId w) (p : Str) (out : Int) :
    Ensures (each I) (FontManagerClient.getFontScope true caller p out)
      (fun r w' => w' = w ∧ ∀ scope, scope = fontScopeApp ∨ scope = fontScopeSession →
        (r = (FontErrorCode.ok.value, scope) ↔
          scopeReply (RecordStore.findInfo (has Record.urls p) v.records) caller.bundleName
            caller.tokenId = scope)) w := by
  unfold FontManagerClient.getFontScope
  rw [if_pos rfl, scope_admitted hc]
  refine Ensures.bind ((getFontScope_exact hI hv p caller.bundleName caller.tokenId).mono ?_)
  rintro code w' ⟨rfl, rfl⟩
  split
  · rename_i hout
    refine Ensures.pure ⟨rfl, fun scope hscope => iff_of_false (fun hr => ?_) fun hr => ?_⟩
    · have hzero := congrArg Prod.fst hr
      rw [show FontErrorCode.ok.value = 0 from rfl] at hzero
      dsimp only at hzero
      omega
    · rcases hscope with rfl | rfl <;> simp [hr, fontScopeApp, fontScopeSession] at hout
  · exact Ensures.pure ⟨rfl, fun scope _ => ⟨congrArg Prod.snd, fun h => by rw [h]⟩⟩

theorem client_uninstall (hI : ∀ io, I io → Undisturbed io) (hc : admitted caller)
    (hp : v.Placed) (hv : v.Shows caller.userId w) (p : Str) :
    Ensures (each I) (FontManagerClient.uninstallScopeFont true caller p)
      (fun r w' => ∃ code : FontErrorCode, r = (FontErrorCode.ok.value, code.value) ∧
        Removed caller.userId v p caller.bundleName caller.tokenId code w') w := by
  unfold FontManagerClient.uninstallScopeFont
  rw [if_pos rfl, uninstall_admitted hc]
  exact Ensures.bind ((uninstallScopeFont_exact hI hp hv p caller.bundleName caller.tokenId).mono
    fun code w' h => Ensures.pure ⟨code, rfl, h⟩)

end client

section key

variable {rs : List Record} {r : Record} {p key : Str}

theorem find_new (hr : r.srcPath = some key) (hfresh : ∀ q ∈ rs, key ∉ q.urls) :
    (rs ++ [r]).find? (has Record.urls key) = some r := by
  rw [List.find?_append, find_has_none.mpr hfresh]
  simp [Record.urls, hr]

theorem erase_new (hr : r.srcPath = some key) (hfresh : ∀ q ∈ rs, key ∉ q.urls) :
    (rs ++ [r]).eraseP (has Record.urls key) = rs := by
  rw [List.eraseP_append_right _ fun q hq => by simpa using hfresh q hq]
  simp [Record.urls, hr]

theorem erase_other (hr : r.srcPath = some key) (hfresh : ∀ q ∈ rs, key ∉ q.urls) (hp : p ≠ key)
    (hfound : ((rs ++ [r]).find? (has Record.urls p)).isSome = true) :
    (rs ++ [r]).eraseP (has Record.urls p) ≠ rs := by
  have hother : has Record.urls p r = false := by
    simp [Record.urls, hr, hp]
  obtain ⟨q, hq⟩ := Option.isSome_iff_exists.mp hfound
  rw [List.find?_append, List.find?_singleton, hother] at hq
  have hq : rs.find? (has Record.urls p) = some q := by simpa using hq
  rw [List.eraseP_append_left (List.find?_some hq) _ (List.mem_of_find?_eq_some hq)]
  intro heq
  have hmem : r ∈ rs := heq ▸ List.mem_append_right _ List.mem_cons_self
  exact hfresh r hmem (by simp [Record.urls, hr])

theorem owns_new (env : Env) {caller : Caller} (fd : Fd) {scope : Int} (key : Str) (hc : admitted caller)
    (hscope : scope = fontScopeApp ∨ scope = fontScopeSession) :
    (FontManager.owns
        (Record.ofInfo (installedInfo env (FontManagerServer.scopeInfo caller fd scope key))).info
        caller.bundleName caller.tokenId = true ↔ NulFree caller.bundleName) ∧
      (Record.ofInfo (installedInfo env (FontManagerServer.scopeInfo caller fd scope key))).info.scope =
        scope := by
  have hid := Record.optional_of_nulFree (makeAppIdentifier_plain scope caller.tokenId).nonempty
    (makeAppIdentifier_nulFree scope caller.tokenId)
  have hinfo : (Record.ofInfo
      (installedInfo env (FontManagerServer.scopeInfo caller fd scope key))).info.scope = scope := by
    rcases hscope with rfl | rfl <;> rfl
  refine ⟨?_, hinfo⟩
  rw [FontManager.owns, hinfo]
  have happ : (Record.ofInfo
      (installedInfo env (FontManagerServer.scopeInfo caller fd scope key))).info.appIdentifier =
        makeAppIdentifier scope caller.tokenId := by
    simp only [Record.info, Record.ofInfo, installedInfo, FontManagerServer.scopeInfo, hid]
    rfl
  have hbundle : (Record.ofInfo
      (installedInfo env (FontManagerServer.scopeInfo caller fd scope key))).info.bundleName =
        cStr caller.bundleName := by
    simp [Record.info, Record.ofInfo, installedInfo, FontManagerServer.scopeInfo, Record.optional,
      hc.2.2]
  rw [happ, hbundle]
  simp only [decide_true, Bool.and_true, decide_eq_true_eq]
  exact ⟨fun h => h ▸ cStr_nulFree _, cStr_of_nulFree⟩

end key

def Agrees (available : Bool) (caller : Caller) (p : Str) (scope : Int) (key : Str) (w : World)
    (queryIos removeIos : List Io) : Prop :=
  let queried := (FontManagerClient.getFontScope available caller p fontScopeNone).run semantics w
    queryIos
  let removed := (FontManagerClient.uninstallScopeFont available caller p).run semantics queried.2
    removeIos
  queried.1 = (FontErrorCode.ok.value, scope) ∧
    removed.1 = (FontErrorCode.ok.value, FontErrorCode.ok.value) ∧
    ∃ front item, listed (w.config caller.userId) = front ++ [item] ∧
      stringItem item fontSrcPath = some key ∧ listed (removed.2.config caller.userId) = front

section added

variable {I : Io → Prop} {caller : Caller} {env : Env} {fd : Fd} {scope : Int} {p key : Str}
  {u : Int} {rs : List Record} {w w' : World}

def newRecord (caller : Caller) (env : Env) (fd : Fd) (scope : Int) (key : Str) : Record :=
  .ofInfo (installedInfo env (FontManagerServer.scopeInfo caller fd scope key))

theorem stored_of_effect {s : Slot} {fresh : List Record → Prop} {r : Record} {v v' : View}
    (hI : ∀ io, I io → Undisturbed io) (hd : s.dir ≠ none)
    (h : InstallEffect (each I) u s fresh r fd v w .ok v' w') :
    ∃ rs, v.Shrinks (some rs) ∧ fresh rs ∧ v' = some (rs ++ [r]) := by
  cases h with
  | failed hcode => exact absurd rfl hcode
  | skipped hnone => exact absurd hnone hd
  | lost hio hlost => rw [(hI _ hio).2] at hlost; cases hlost
  | stored hs hn hf => exact ⟨_, hs, hf, rfl⟩

theorem srcPath_newRecord (hkey : key.head? = some '/' ∧ NulFree key) :
    (newRecord caller env fd scope key).srcPath = some key := by
  have hne : key ≠ [] := by
    rintro rfl
    simp at hkey
  exact Record.optional_of_nulFree hne hkey.2

theorem shown_erased
    (hv : View.Shows u ((some (rs ++ [newRecord caller env fd scope key]) : View).map
      (List.eraseP (has Record.urls p))) w') :
    listed (w'.config u) = rs.map Record.item ↔
      (rs ++ [newRecord caller env fd scope key]).eraseP (has Record.urls p) = rs := by
  rw [listed_shows hv]
  exact (List.map_injective_iff.mpr fun _ _ => Record.item_injective).eq_iff

theorem found_iff (env : Env) (fd : Fd) (hc : admitted caller)
    (hscope : scope = fontScopeApp ∨ scope = fontScopeSession)
    (hkey : key.head? = some '/' ∧ NulFree key) (hfresh : ∀ q ∈ rs, key ∉ q.urls) :
    scopeReply (RecordStore.findInfo (has Record.urls p) (rs ++ [newRecord caller env fd scope key]))
          caller.bundleName caller.tokenId = scope ∧
        (p ≠ [] ∧ ownedInfo (RecordStore.findInfo (has Record.urls p)
          (rs ++ [newRecord caller env fd scope key])) caller.bundleName caller.tokenId = true) ∧
        (rs ++ [newRecord caller env fd scope key]).eraseP (has Record.urls p) = rs ↔
      p = key ∧ NulFree caller.bundleName := by
  have hr : (newRecord caller env fd scope key).srcPath = some key := srcPath_newRecord hkey
  obtain ⟨howns, hscoped⟩ := owns_new env fd key hc hscope
  constructor
  · rintro ⟨-, ⟨-, howned⟩, herase⟩
    have hp : p = key := by
      by_contra hp
      refine erase_other hr hfresh hp ?_ herase
      cases hfind : (rs ++ [newRecord caller env fd scope key]).find? (has Record.urls p) with
      | none => simp [RecordStore.findInfo, hfind, ownedInfo] at howned
      | some q => rfl
    subst hp
    rw [RecordStore.findInfo, find_new hr hfresh] at howned
    exact ⟨rfl, howns.mp howned⟩
  · rintro ⟨rfl, hbundle⟩
    rw [RecordStore.findInfo, find_new hr hfresh, Option.map_some]
    have howned : FontManager.owns (newRecord caller env fd scope p).info caller.bundleName
        caller.tokenId = true := howns.mpr hbundle
    refine ⟨?_, ⟨?_, howned⟩, erase_new hr hfresh⟩
    · rw [scopeReply, if_pos howned]
      exact hscoped
    · rintro rfl
      simp at hkey

theorem listed_append (hr : (newRecord caller env fd scope key).srcPath = some key)
    (hv : View.Shows u (some (rs ++ [newRecord caller env fd scope key])) w)
    (front : List Json) (item : Json) :
    listed (w.config u) = front ++ [item] ∧ stringItem item fontSrcPath = some key ↔
      front = rs.map Record.item ∧ item = (newRecord caller env fd scope key).item := by
  rw [listed_shows hv, View.records, Option.getD_some, List.map_append, List.map_singleton]
  constructor
  · rintro ⟨h, -⟩
    obtain ⟨h₁, h₂⟩ := List.append_inj' h rfl
    exact ⟨h₁.symm, (List.singleton_inj.mp h₂).symm⟩
  · rintro ⟨rfl, rfl⟩
    exact ⟨rfl, by rw [Record.stringItem_fontSrcPath, hr]⟩

end added

theorem agrees_iff {caller : Caller} {env : Env} {fd : Fd} {scope : Int} {p key : Str}
    {rs : List Record} {w : World} {queryIos removeIos : List Io} (hc : admitted caller)
    (hscope : scope = fontScopeApp ∨ scope = fontScopeSession)
    (hkey : key.head? = some '/' ∧ NulFree key) (hfresh : ∀ q ∈ rs, key ∉ q.urls)
    (hp : View.Placed (some (rs ++ [newRecord caller env fd scope key])))
    (hv : View.Shows caller.userId (some (rs ++ [newRecord caller env fd scope key])) w)
    (hquery : ∀ io ∈ queryIos, Undisturbed io) (hremove : ∀ io ∈ removeIos, Undisturbed io) :
    Agrees true caller p scope key w queryIos removeIos ↔ p = key ∧ NulFree caller.bundleName := by
  obtain ⟨hsame, hreply⟩ := Program.run_of_wp semantics Undisturbed ⟨rfl, rfl⟩
    (client_scope (fun _ hio => hio) hc hv p fontScopeNone) hquery
  obtain ⟨code, hcode, hreplied, hview⟩ := Program.run_of_wp semantics Undisturbed ⟨rfl, rfl⟩
    (client_uninstall (fun _ hio => hio) hc hp hv p) hremove
  have hlisted (front : List Json) (item : Json) := listed_append (srcPath_newRecord hkey) hv front item
  have hok : (FontErrorCode.ok.value, code.value) = (FontErrorCode.ok.value, FontErrorCode.ok.value) ↔
      code = .ok := by
    rw [Prod.mk.injEq, and_iff_right rfl, value_ok]
  rw [Agrees, hsame, hcode, hreply scope hscope, hok, hreplied,
    ← found_iff env fd hc hscope hkey hfresh]
  refine and_congr_right fun _ => and_congr_right fun hfound => ?_
  have herased := hview (hreplied.mpr hfound)
  constructor
  · rintro ⟨front, item, hlist, hsrc, hafter⟩
    obtain ⟨rfl, -⟩ := (hlisted _ _).mp ⟨hlist, hsrc⟩
    exact (shown_erased herased).mp hafter
  · intro herase
    obtain ⟨hlist, hsrc⟩ := (hlisted _ _).mpr ⟨rfl, rfl⟩
    exact ⟨_, _, hlist, hsrc, (shown_erased herased).mpr herase⟩

theorem key_agrees_iff {fs : FileSystem} {available : Bool} {caller : Caller} {env : Env} {p : Str}
    {scope : Int} {w w' : World} (es : List (FontCall × List Io))
    (installIos queryIos removeIos : List Io) (h : w.config caller.userId = some emptyConfig)
    (hios : ∀ io ∈ installIos ++ queryIos ++ removeIos, Undisturbed io)
    (hok : (FontManagerClient.installScopeFont fs available caller env p scope).run semantics
      ((FontCall.service caller.userId).after w es) installIos =
        ((FontErrorCode.ok.value, FontErrorCode.ok.value), w')) :
    (∃ key, fs.realpath (cStr p) = some key ∧
        Agrees available caller p scope key w' queryIos removeIos) ↔
      fs.realpath (cStr p) = some p ∧ NulFree caller.bundleName := by
  simp only [List.mem_append, or_imp, forall_and] at hios
  obtain ⟨⟨hinstall, hquery⟩, hremove⟩ := hios
  obtain ⟨v, hp, hv⟩ := reachable_placed h es
  have hinstalled := Program.run_of_wp semantics Undisturbed ⟨rfl, rfl⟩
    (client_install fs available env p scope hv)
    hinstall
  rw [hok] at hinstalled
  obtain ⟨rfl, hc, key, fd, v', hkey, hv', heffect⟩ := hinstalled rfl
  obtain ⟨rs, hs, ⟨hscope, hfresh⟩, rfl⟩ :=
    stored_of_effect (fun _ hio => hio) (by simp [appSlot]) heffect
  have hpath := fs.canonical _ _ hkey
  have hp' : View.Placed (some (rs ++ [newRecord caller env fd scope key])) :=
    FontCall.placed_append hp hs (FontCall.app_placed env hscope)
  have hanswer : Agrees true caller p scope key w' queryIos removeIos ↔
      p = key ∧ NulFree caller.bundleName :=
    agrees_iff hc hscope hpath
      (hfresh (attentive_of_readable fun _ _ _ hio => hio.1)) hp' hv' hquery hremove
  constructor
  · rintro ⟨key', hkey', hagrees⟩
    obtain rfl := Option.some.inj (hkey.symm.trans hkey')
    obtain ⟨rfl, hbundle⟩ := hanswer.mp hagrees
    exact ⟨hkey, hbundle⟩
  · rintro ⟨hcanonical, hbundle⟩
    obtain rfl := Option.some.inj (hkey.symm.trans hcanonical)
    exact ⟨_, hkey, hanswer.mpr ⟨rfl, hbundle⟩⟩

section linked

def target : Str := "/data/a.ttf".toList

def linked : FileSystem where
  realpath p := if p = "/link".toList ∨ p = target then some target else none
  access _ := true
  openFile _ := some ⟨some target, [1], ["A".toList]⟩
  canonical p q h := by
    split at h
    · cases h
      decide
    · cases h

def app : Caller where
  updateFont := false
  updateScopeFont := true
  tokenId := 5
  userId := 100
  bundleName := "bundle".toList

def installed (p : Str) : World :=
  ((FontManagerClient.installScopeFont linked true app (Sample.noon 0) p fontScopeSession).run semantics
    (.provisioned [100]) []).2

theorem link_key_differs :
    ¬ ∀ (fs : FileSystem) (caller : Caller) (env : Env) (p : Str) (scope : Int) (w w' : World)
      (installIos queryIos removeIos : List Io), w.config caller.userId = some emptyConfig →
      (∀ io ∈ installIos ++ queryIos ++ removeIos, Undisturbed io) →
      (FontManagerClient.installScopeFont fs true caller env p scope).run semantics w installIos =
        ((FontErrorCode.ok.value, FontErrorCode.ok.value), w') →
      ∃ key, fs.realpath (cStr p) = some key ∧
        Agrees true caller p scope key w' queryIos removeIos := by
  intro h
  obtain ⟨key, -, hqueried, -⟩ := h linked app (Sample.noon 0) "/link".toList fontScopeSession
    (.provisioned [100]) (installed "/link".toList) [] [] [] rfl (by simp)
    (Prod.ext (by decide) rfl)
  exact absurd hqueried (by decide)

theorem target_installed :
    (FontManagerClient.installScopeFont linked true app (Sample.noon 0) target fontScopeSession).run semantics
        ((FontCall.service 100).after (.provisioned [100]) []) [] =
      ((FontErrorCode.ok.value, FontErrorCode.ok.value), installed target) :=
  Prod.ext (by decide) rfl

theorem canonical_key_agrees :
    ∃ key, linked.realpath (cStr target) = some key ∧
      Agrees true app target fontScopeSession key (installed target) [] [] :=
  (key_agrees_iff [] [] [] [] rfl (by simp) target_installed).mpr ⟨by decide, by decide⟩

end linked

end CanonicalKey
