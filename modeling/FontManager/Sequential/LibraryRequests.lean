import FontManager.Sequential.LibraryShelves

open FontDefine FontManagerUtils FontLocation FontBook UserIsolation Interaction

namespace FontLibrary

variable {lib : FontLibrary} {w : World} {u : Int}

def Meets {α : Type} (out : α → Int) (r : Int × FontLibrary) (a : α) (w : World) : Prop :=
  out a = r.1 ∧ Kept r.2 w

section gates

variable {α : Type} {out : α → Int} {e : Errand} {passes : Bool} {code : FontErrorCode}
  {rest : List (Bool × FontErrorCode)} {c : Prop} [Decidable c] {a : α} {p : FontTask α}

theorem Kept.guard (h : Kept lib w) (hc : c ↔ passes = false) (ha : out a = code.value)
    (hp : passes = true → Ensures (each Faultless) p (Meets out (lib.answer e rest)) w) :
    Ensures (each Faultless) (if c then pure a else p) (Meets out (lib.answer e ((passes, code) :: rest)))
      w := by
  cases passes with
  | false =>
    rw [if_pos (hc.mpr rfl)]
    exact ⟨ha, h⟩
  | true =>
    rw [if_neg fun hcond => Bool.noConfusion (hc.mp hcond)]
    exact hp rfl

theorem answer_pass (h : passes = true) :
    lib.answer e ((passes, code) :: rest) = lib.answer e rest := if_pos h

theorem answer_refuse (h : passes = false) :
    lib.answer e ((passes, code) :: rest) = (code.value, lib) := if_neg (Bool.eq_false_iff.mp h)

theorem denied_iff (b : Bool) : (!b) = true ↔ b = false := by simp

theorem negative_iff (n : Int) : n < 0 ↔ decide (0 ≤ n) = false := by
  rw [decide_eq_false_iff_not, Int.not_le]

end gates

section sweeps

theorem sweepUsers_userIds (p : Record → Bool) (userIds : List Int) :
    (sweepUsers p lib userIds).userIds = lib.userIds := by
  induction userIds generalizing lib with
  | nil => rfl
  | cons u rest ih => exact ih

theorem mem_sweepUsers {p : Record → Bool} {userIds : List Int} {f : Font}
    (h : f ∈ (sweepUsers p lib userIds).books u) :
    f ∈ lib.books u ∧ (u ∈ userIds → p f.record = false) := by
  induction userIds generalizing lib with
  | nil => exact ⟨h, fun hu => absurd hu List.not_mem_nil⟩
  | cons v rest ih =>
    obtain ⟨hmem, hrest⟩ := ih h
    by_cases huv : u = v
    · subst huv
      rw [books_self] at hmem
      obtain ⟨hold, hp⟩ := List.mem_filter.mp hmem
      exact ⟨hold, fun _ => by simpa using hp⟩
    · rw [books_other huv] at hmem
      refine ⟨hmem, ?_⟩
      intro hu
      exact hrest ((List.mem_cons.mp hu).resolve_left huv)

theorem fits_removal {book : List Font} {c : FontCall} (hsource : c.source = none)
    (hurl : c.url = none) (htarget : c.target = none) : Fits book c := by
  constructor
  · simp [StoreInvariant.NamesNulFree, hsource]
  · simp [hurl]
  · simp [hsource]
  · simp [htarget]

theorem Kept.cleanupUsers (h : Kept lib w) {c : FontCall} {p : Record → Bool}
    (hc : ∀ u limit book, Fits book c ∧ FontBook.step u limit book c = clean u book p)
    {userIds : List Int} (hids : ∀ u ∈ userIds, u ∈ lib.userIds) :
    Ensures (each Faultless) (FontManagerServer.cleanupUsers (fun u => c.program u) userIds)
      (fun _ w' => Kept (sweepUsers p lib userIds) w') w := by
  induction userIds generalizing lib w with
  | nil => exact h
  | cons u rest ih =>
    obtain ⟨hfit, hstep⟩ := hc u lib.limit (lib.books u)
    apply Ensures.bind
    apply (call_kept h (hids u List.mem_cons_self) hfit).mono
    rintro code w₁ ⟨-, h₁⟩
    rw [hstep] at h₁
    exact ih h₁ fun v hv => hids v (List.mem_cons_of_mem u hv)

end sweeps

section errands

theorem Kept.call (h : Kept lib w) {c : FontCall} (hu : 0 ≤ u) (hadmits : lib.Admits (.call u c)) :
    Ensures (each Faultless) (c.program u) (Meets FontErrorCode.value (lib.answer (.call u c) [])) w := by
  obtain ⟨hmem, hfit⟩ := hadmits hu
  apply (call_kept h hmem hfit).mono
  rintro code w' ⟨rfl, h'⟩
  exact ⟨rfl, h'⟩

theorem Kept.scopeOf (h : Kept lib w) (hu : u ∈ lib.userIds) (srcPath bundleName : Str)
    (tokenId : Int) :
    Ensures (each Faultless) (FontManager.getFontScope srcPath bundleName tokenId u)
      (Meets id (lib.answer (.scopeOf u srcPath bundleName tokenId) [])) w := by
  have meets : ∀ {n : Int}, n = FontLibrary.scopeOf (lib.books u) srcPath bundleName tokenId →
      Meets id (lib.answer (.scopeOf u srcPath bundleName tokenId) []) n w := fun hn => ⟨hn, h⟩
  unfold FontLibrary.scopeOf at meets
  unfold FontManager.getFontScope
  apply Ensures.bind
  apply (h.displays u hu).query (.getFontRecordByUrl srcPath) rfl
  rw [RecordStore.findInfo, find_located, Option.map_map]
  cases hfind : (lib.books u).find? (located srcPath) with
  | none =>
    apply meets
    rw [hfind]
  | some f =>
    rw [hfind] at meets
    dsimp only [Option.map_some, Function.comp_apply] at meets ⊢
    split
    · next howns =>
      apply meets
      rw [if_pos howns]
    · next howns =>
      apply meets
      rw [if_neg howns]

theorem Kept.registry_only (h : Kept lib w) {r : FontClientRegistry}
    (htidy : Tidy { lib with registry := r }) :
    Kept { lib with registry := r } { w with registry := r } where
  users := h.users
  registry := rfl
  inside := h.inside
  tidy := htidy
  displays v hv :=
    have hshelf := h.displays v hv
    ⟨hshelf.view, hshelf.valid, hshelf.stored, hshelf.arranged, hshelf.root, rfl, hshelf.limit⟩
  published := h.published

theorem Kept.register (h : Kept lib w) {hasBinder : Bool} {bundleName : Str} {tokenId : Int}
    (hu : 0 ≤ u → u ∈ lib.userIds) :
    Ensures (each Faultless) (FontClientRegistry.perform (.registerClient hasBinder bundleName u tokenId))
      (Meets FontErrorCode.value (lib.answer (.register hasBinder bundleName u tokenId) [])) w := by
  intro io hio
  show Meets FontErrorCode.value _
    (w.registry.registerClient hasBinder io.ok bundleName u tokenId).1
    { w with registry := (w.registry.registerClient hasBinder io.ok bundleName u tokenId).2 }
  rw [hio.1, h.registry]
  exact ⟨rfl, h.registry_only (h.tidy.register hu)⟩

theorem Kept.cleanup (h : Kept lib w) {tokenId : Int} {client : ClientInfo}
    (hclient : Known lib.userIds tokenId client) :
    Ensures (each Faultless) (FontClientRegistry.cleanup (client.appIdentifier, client.userId))
      (fun _ w' => Kept (if client.userId < 0 then lib
        else (lib.call client.userId (.cleanupAppScopeFonts fontScopeApp tokenId)).2) w') w := by
  unfold FontClientRegistry.cleanup
  have hid : client.appIdentifier ≠ [] :=
    hclient.identifier ▸ (makeAppIdentifier_plain fontScopeApp tokenId).nonempty
  split
  · next hboth =>
    have hnonneg : 0 ≤ client.userId := hboth.2
    rw [if_neg (Int.not_lt.mpr hnonneg), hclient.identifier]
    apply Ensures.bind
    apply (call_kept h (hclient.user hnonneg) (c := .cleanupAppScopeFonts fontScopeApp tokenId)
      (fits_removal rfl rfl rfl)).mono
    rintro code w' ⟨-, h'⟩
    exact h'
  · next hboth =>
    have hneg : client.userId < 0 := Int.not_le.mp fun hnonneg => hboth ⟨hid, hnonneg⟩
    rw [if_pos hneg]
    exact h

theorem Kept.depart (h : Kept lib w) (tokenId : Int) (absent : FontErrorCode)
    {p : Option (Str × Int) → FontTask FontErrorCode} (hnone : p none = pure absent)
    (hsome : ∀ client, p (some client) = do
      FontClientRegistry.cleanup client
      pure .ok) :
    Ensures (each Faultless) (FontClientRegistry.perform (.eraseClient tokenId) >>= p)
      (Meets FontErrorCode.value (lib.answer (.depart tokenId absent) [])) w := by
  apply Ensures.bind
  intro io _
  show Ensures (each Faultless) (p (w.registry.eraseClient tokenId).1) _
    { w with registry := (w.registry.eraseClient tokenId).2 }
  rw [FontClientRegistry.eraseClient_reply, h.registry]
  have herased := h.registry_only (h.tidy.erase tokenId)
  simp only [FontLibrary.answer, FontLibrary.serve, FontLibrary.depart]
  cases hinfo : lib.registry.info tokenId with
  | none =>
    have hsame : (lib.registry.eraseClient tokenId).2 = lib.registry := by
      rw [FontClientRegistry.eraseClient, hinfo]
    rw [hsame] at herased ⊢
    rw [Option.map_none, hnone]
    exact ⟨rfl, herased⟩
  | some client =>
    rw [Option.map_some, hsome]
    apply Ensures.bind
    apply (herased.cleanup (h.tidy.clients tokenId client hinfo)).mono
    intro _ w' h'
    exact ⟨rfl, h'⟩

end errands

section requests

theorem Kept.value {p : FontTask FontErrorCode} {r : Int × FontLibrary}
    (h : Ensures (each Faultless) p (Meets FontErrorCode.value r) w) :
    Ensures (each Faultless) (FontManagerServer.value p) (Meets id r) w := by
  apply Ensures.bind
  exact h.mono fun _ _ hmeets => hmeets

theorem Kept.createdUserIds (h : Kept lib w) {Q : List Int → World → Prop} (hQ : Q lib.userIds w) :
    Ensures (each Faultless) getAllCreatedUserIds Q w := by
  intro _ _
  rw [← h.users] at hQ
  exact hQ

theorem cleared {q : Int → Bool} (selected : Str → Bool) (hlib : lib.Tidy)
    (hq : ∀ scope t, scope = fontScopeApp ∨ scope = fontScopeSession →
      selected (makeAppIdentifier scope t) = true → q (Record.clamp scope) = true) :
    ∀ v ∈ (sweepUsers (Record.inScope q) lib lib.userIds).userIds,
      ∀ f ∈ (sweepUsers (Record.inScope q) lib lib.userIds).books v,
        ∀ d ∈ f.slot.dir, selected d = false := by
  intro v hv f hf d hd
  rw [sweepUsers_userIds] at hv
  obtain ⟨hmem, hleft⟩ := mem_sweepUsers hf
  rcases ((hlib.books v hv).placed f hmem).owner with ⟨-, -, hnone⟩ | ⟨scope, t, hs, hscope, -, hdir⟩
  · rw [hnone] at hd
    cases hd
  · rw [hdir] at hd
    obtain rfl := Option.some.inj hd
    cases hselected : selected (makeAppIdentifier scope t) with
    | false => rfl
    | true =>
      have hchosen := hleft hv
      rw [Record.inScope, hscope, Option.any_some, hq scope t hs hselected] at hchosen
      cases hchosen

theorem Kept.onBoot (h : Kept lib w) :
    Ensures (each Faultless) FontManagerServer.cleanupAllScopeFontsOnBoot
      (Meets FontErrorCode.value (lib.answer (.sweep (Record.inScope (· ≥ 0))) [])) w := by
  apply Ensures.bind
  apply h.createdUserIds
  apply Ensures.bind
  apply (h.cleanupUsers (c := .cleanupScopeFontsByUser)
    (fun _ _ _ => ⟨fits_removal rfl rfl rfl, rfl⟩) fun _ hu => hu).mono
  intro _ w₁ h₁
  apply Ensures.bind
  apply h₁.createdUserIds
  apply Ensures.bind
  apply (h₁.clearAllTempFileDir _).mono
  intro _ w₂ h₂
  apply Ensures.bind
  apply h₂.createdUserIds
  apply Ensures.bind
  have hclear := cleared (q := (· ≥ 0)) isScopeDir h.tidy fun scope _ hscope _ => by
    rcases hscope with rfl | rfl <;> decide
  apply (h₂.cleanupDirs (fun _ hd => hd) hclear fun _ hu => hu).mono
  intro _ w₃ h₃
  exact ⟨rfl, h₃⟩

theorem cleared_app (hlib : lib.Tidy) :
    ∀ v ∈ (sweepUsers (Record.inScope (· = fontScopeApp)) lib lib.userIds).userIds,
      ∀ f ∈ (sweepUsers (Record.inScope (· = fontScopeApp)) lib lib.userIds).books v,
        ∀ d ∈ f.slot.dir, isAppDir d = false := by
  apply cleared isAppDir hlib
  intro scope t hscope hdir
  rcases hscope with rfl | rfl
  · decide
  · cases hdir

theorem Kept.onStart (h : Kept lib w) :
    Ensures (each Faultless) FontManagerServer.cleanupAppScopeFontsOnStart
      (Meets FontErrorCode.value (lib.answer (.sweep (Record.inScope (· = fontScopeApp))) [])) w := by
  apply Ensures.bind
  apply h.createdUserIds
  apply Ensures.bind
  apply (h.cleanupUsers (c := .cleanupAppScopeFontsByUser)
    (fun _ _ _ => ⟨fits_removal rfl rfl rfl, rfl⟩) fun _ hu => hu).mono
  intro _ w₁ h₁
  apply Ensures.bind
  apply h₁.createdUserIds
  apply Ensures.bind
  have hclear := cleared_app h.tidy
  apply (h₁.cleanupDirs (fun d hd => Bool.or_eq_true_iff.mpr (Or.inl hd)) hclear fun _ hu => hu).mono
  intro _ w₂ h₂
  exact ⟨rfl, h₂⟩

theorem Kept.permitted (h : Kept lib w) {c : FontCall} (hadmits : lib.Admits (.call u c))
    (permission : Bool) (invalid : FontErrorCode) :
    Ensures (each Faultless) (if !permission then pure .noPermission else if u < 0 then pure invalid
        else c.program u)
      (Meets FontErrorCode.value (lib.answer (.call u c)
        [(permission, .noPermission), (decide (0 ≤ u), invalid)])) w := by
  apply h.guard (denied_iff _) rfl
  intro _
  apply h.guard (negative_iff _) rfl
  intro hu
  exact h.call (of_decide_eq_true hu) hadmits

section scopes

variable {caller : Caller} {env : Env} {fd : Fd} {scope : Int} {srcPath : Str}

theorem Kept.installRegistered (h : Kept lib w) (hu : 0 ≤ caller.userId)
    (hadmits : lib.Admits (Request.installScopeFont caller env fd scope srcPath).errand) :
    Ensures (each Faultless) (FontManagerServer.installRegistered caller env fd scope srcPath)
      (Meets FontErrorCode.value (lib.answer
        (Request.installScopeFont caller env fd scope srcPath).errand
        [(caller.bundleName ≠ [], .systemError)])) w := by
  apply h.guard (by simp) rfl
  intro _
  exact h.call hu hadmits

theorem Kept.installScope (h : Kept lib w)
    (hadmits : lib.Admits (Request.installScopeFont caller env fd scope srcPath).errand) :
    Ensures (each Faultless) (FontManagerServer.installScopeFontInner caller env fd scope srcPath)
      (Meets FontErrorCode.value (lib.step (.installScopeFont caller env fd scope srcPath))) w := by
  apply h.guard (denied_iff _) rfl
  intro _
  apply h.guard (by simp [Request.isScope]) rfl
  intro _
  apply h.guard (negative_iff _) rfl
  intro hnonneg
  have hu : 0 ≤ caller.userId := of_decide_eq_true hnonneg
  have hserve := h.installRegistered hu hadmits
  by_cases hscope : scope = fontScopeApp
  · rw [if_pos hscope]
    apply Ensures.bind
    intro io _
    show Ensures (each Faultless) (if w.registry.isClientRegistered caller.tokenId then _ else _) _ w
    rw [h.registry]
    cases hknown : lib.registry.isClientRegistered caller.tokenId with
    | false =>
      rw [if_neg Bool.false_ne_true, answer_refuse (by simp [hscope])]
      exact Ensures.pure ⟨rfl, h⟩
    | true =>
      rw [if_pos rfl, answer_pass (by simp)]
      exact hserve
  · rw [if_neg hscope, answer_pass (by simp [hscope])]
    exact hserve

end scopes

theorem request_kept (h : Kept lib w) (q : Request) (hadmits : lib.Admits q.errand) :
    Ensures (each Faultless) (FontManagerServer.program q) (Meets id (lib.step q)) w := by
  cases q with
  | installFont caller env fd =>
    exact Kept.value (h.permitted hadmits caller.updateFont .installFail)
  | uninstallFont caller fontName =>
    exact Kept.value (h.permitted hadmits caller.updateFont .uninstallFail)
  | installFontWithUserId caller env fd userId =>
    exact Kept.value (h.permitted hadmits caller.updateFont .invalidParam)
  | uninstallFontWithUserId caller fontName userId =>
    exact Kept.value (h.permitted hadmits caller.updateFont .invalidParam)
  | onFontObserver caller hasBinder =>
    apply Kept.value
    apply h.guard (denied_iff _) rfl
    intro _
    exact h.register hadmits
  | offFontObserver caller =>
    apply Kept.value
    apply h.guard (denied_iff _) rfl
    intro _
    exact h.depart caller.tokenId .scopeFontNotRegistered rfl fun _ => rfl
  | installScopeFont caller env fd scope srcPath => exact Kept.value (h.installScope hadmits)
  | uninstallScopeFont caller srcPath =>
    apply Kept.value
    apply h.guard (denied_iff _) rfl
    intro _
    apply h.guard (negative_iff _) rfl
    intro hu
    apply h.guard (by simp) rfl
    intro _
    exact h.call (of_decide_eq_true hu) hadmits
  | getFontScope caller srcPath =>
    have hid : ∀ code : FontErrorCode, id code.value = code.value := fun _ => rfl
    apply h.guard (denied_iff _) (hid _)
    intro _
    apply h.guard (negative_iff _) (hid _)
    intro hu
    apply h.guard (by simp) (hid _)
    intro _
    exact h.scopeOf (hadmits (of_decide_eq_true hu)) srcPath caller.bundleName caller.tokenId
  | clientDied tokenId =>
    apply Kept.value
    exact h.depart tokenId .ok rfl fun _ => rfl
  | cleanupAllScopeFontsOnBoot => exact Kept.value h.onBoot
  | cleanupUserScopeFonts userId =>
    apply Kept.value
    apply h.guard (negative_iff _) rfl
    intro hu
    exact h.call (of_decide_eq_true hu) hadmits
  | cleanupAppScopeFontsOnStart => exact Kept.value h.onStart

end requests

end FontLibrary
