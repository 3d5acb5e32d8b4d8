import FontManager.Interaction.Refinement
import FontManager.Sequential.BookRefinement
import FontManager.Sequential.RegistryConsistency
import FontManager.Source.Server
import Mathlib.Logic.Function.Basic

open FontDefine FontManagerUtils FontBook Interaction

structure FontLibrary where
  userIds : List Int
  limit : Int
  books : Int → List Font
  registry : FontClientRegistry
  events : List FontEvent

inductive Errand where
  | call (userId : Int) (c : FontCall)
  | scopeOf (userId : Int) (srcPath bundleName : Str) (tokenId : Int)
  | register (hasBinder : Bool) (bundleName : Str) (userId tokenId : Int)
  | depart (tokenId : Int) (absent : FontErrorCode)
  | sweep (p : Record → Bool)

namespace Request

def isScope (scope : Int) : Bool := scope = fontScopeApp || scope = fontScopeSession

def gate (r : FontClientRegistry) : Request → List (Bool × FontErrorCode)
  | .installFont caller _ _ =>
    [(caller.updateFont, .noPermission), (decide (0 ≤ caller.userId), .installFail)]
  | .uninstallFont caller _ =>
    [(caller.updateFont, .noPermission), (decide (0 ≤ caller.userId), .uninstallFail)]
  | .installFontWithUserId caller _ _ userId =>
    [(caller.updateFont, .noPermission), (decide (0 ≤ userId), .invalidParam)]
  | .uninstallFontWithUserId caller _ userId =>
    [(caller.updateFont, .noPermission), (decide (0 ≤ userId), .invalidParam)]
  | .onFontObserver caller _ => [(caller.updateScopeFont, .noPermission)]
  | .offFontObserver caller => [(caller.updateScopeFont, .noPermission)]
  | .installScopeFont caller _ _ scope _ =>
    [(caller.updateScopeFont, .noPermission), (isScope scope, .invalidParam),
      (decide (0 ≤ caller.userId), .systemError),
      (scope ≠ fontScopeApp || r.isClientRegistered caller.tokenId, .scopeFontNotRegistered),
      (caller.bundleName ≠ [], .systemError)]
  | .uninstallScopeFont caller _ =>
    [(caller.updateScopeFont, .noPermission), (decide (0 ≤ caller.userId), .systemError),
      (caller.bundleName ≠ [], .systemError)]
  | .getFontScope caller _ =>
    [(caller.updateScopeFont, .noPermission), (decide (0 ≤ caller.userId), .systemError),
      (caller.bundleName ≠ [], .systemError)]
  | .clientDied _ => []
  | .cleanupAllScopeFontsOnBoot => []
  | .cleanupUserScopeFonts userId => [(decide (0 ≤ userId), .ok)]
  | .cleanupAppScopeFontsOnStart => []

def errand : Request → Errand
  | .installFont caller env fd => .call caller.userId (.installFont env fd)
  | .uninstallFont caller fontName => .call caller.userId (.uninstallFont fontName)
  | .installFontWithUserId _ env fd userId => .call userId (.installFont env fd)
  | .uninstallFontWithUserId _ fontName userId => .call userId (.uninstallFont fontName)
  | .onFontObserver caller hasBinder =>
    .register hasBinder caller.bundleName caller.userId caller.tokenId
  | .offFontObserver caller => .depart caller.tokenId .scopeFontNotRegistered
  | .installScopeFont caller env fd scope srcPath =>
    .call caller.userId
      (.installScopeFont env fd scope srcPath caller.bundleName caller.tokenId)
  | .uninstallScopeFont caller srcPath =>
    .call caller.userId (.uninstallScopeFont srcPath caller.bundleName caller.tokenId)
  | .getFontScope caller srcPath => .scopeOf caller.userId srcPath caller.bundleName caller.tokenId
  | .clientDied tokenId => .depart tokenId .ok
  | .cleanupAllScopeFontsOnBoot => .sweep (Record.inScope (· ≥ 0))
  | .cleanupUserScopeFonts userId => .call userId .cleanupScopeFontsByUser
  | .cleanupAppScopeFontsOnStart => .sweep (Record.inScope (· = fontScopeApp))

end Request

namespace FontLibrary

def record (lib : FontLibrary) (u : Int) (o : Outcome) : FontLibrary :=
  { lib with books := Function.update lib.books u o.book, events := lib.events ++ o.events }

def call (lib : FontLibrary) (u : Int) (c : FontCall) : Int × FontLibrary :=
  ((FontBook.step u lib.limit (lib.books u) c).code.value,
    lib.record u (FontBook.step u lib.limit (lib.books u) c))

def scopeOf (book : List Font) (srcPath bundleName : Str) (tokenId : Int) : Int :=
  match book.find? (located srcPath) with
  | none => FontErrorCode.scopeFontNotFound.value
  | some f =>
    if FontManager.owns f.record.info bundleName tokenId then f.record.info.scope
    else FontErrorCode.scopeFontNotFound.value

def register (lib : FontLibrary) (hasBinder : Bool) (bundleName : Str) (u tokenId : Int) :
    Int × FontLibrary :=
  ((lib.registry.registerClient hasBinder true bundleName u tokenId).1.value,
    { lib with registry := (lib.registry.registerClient hasBinder true bundleName u tokenId).2 })

def depart (lib : FontLibrary) (tokenId : Int) (absent : FontErrorCode) : Int × FontLibrary :=
  match lib.registry.info tokenId with
  | none => (absent.value, lib)
  | some client =>
    (FontErrorCode.ok.value,
      if client.userId < 0 then { lib with registry := (lib.registry.eraseClient tokenId).2 }
      else { (lib.call client.userId (.cleanupAppScopeFonts fontScopeApp tokenId)).2 with
        registry := (lib.registry.eraseClient tokenId).2 })

def sweepUsers (p : Record → Bool) : FontLibrary → List Int → FontLibrary
  | lib, [] => lib
  | lib, u :: rest => sweepUsers p (lib.record u (clean u (lib.books u) p)) rest

def serve (lib : FontLibrary) : Errand → Int × FontLibrary
  | .call u c => lib.call u c
  | .scopeOf u srcPath bundleName tokenId =>
    (scopeOf (lib.books u) srcPath bundleName tokenId, lib)
  | .register hasBinder bundleName u tokenId => lib.register hasBinder bundleName u tokenId
  | .depart tokenId absent => lib.depart tokenId absent
  | .sweep p => (FontErrorCode.ok.value, sweepUsers p lib lib.userIds)

def answer (lib : FontLibrary) (e : Errand) : List (Bool × FontErrorCode) → Int × FontLibrary
  | [] => lib.serve e
  | (passes, code) :: rest => if passes then lib.answer e rest else (code.value, lib)

def step (lib : FontLibrary) (q : Request) : Int × FontLibrary :=
  lib.answer q.errand (q.gate lib.registry)

def Admits (lib : FontLibrary) : Errand → Prop
  | .call u c => 0 ≤ u → u ∈ lib.userIds ∧ Fits (lib.books u) c
  | .scopeOf u _ _ _ => 0 ≤ u → u ∈ lib.userIds
  | .register _ _ u _ => 0 ≤ u → u ∈ lib.userIds
  | .depart _ _ => True
  | .sweep _ => True

def ideal : Ideal Request Int FontLibrary where
  admits lib q := lib.Admits q.errand
  reply lib q := (lib.step q).1
  next lib q := (lib.step q).2

def opened (userIds : List Int) : FontLibrary where
  userIds := userIds
  limit := defaultMaxInstallNum
  books _ := []
  registry := .empty
  events := []

structure Known (userIds : List Int) (t : Int) (info : ClientInfo) : Prop where
  identifier : info.appIdentifier = makeAppIdentifier fontScopeApp t
  user : 0 ≤ info.userId → info.userId ∈ userIds

structure Tidy (lib : FontLibrary) : Prop where
  books : ∀ u ∈ lib.userIds, FontBook.Tidy (lib.books u)
  clients : ∀ t info, lib.registry.info t = some info → Known lib.userIds t info

section record

variable {lib : FontLibrary} {u v : Int} {o : Outcome}

theorem books_self : (lib.record u o).books u = o.book := Function.update_self ..

theorem books_other (h : v ≠ u) : (lib.record u o).books v = lib.books v :=
  Function.update_of_ne h ..

theorem Tidy.record (h : lib.Tidy) (ho : FontBook.Tidy o.book) : (lib.record u o).Tidy where
  books v hv := by
    by_cases hvu : v = u
    · rw [hvu, books_self]
      exact ho
    · rw [books_other hvu]
      exact h.books v hv
  clients := h.clients

theorem Tidy.register (h : lib.Tidy) {hasBinder : Bool} {bundleName : Str} {tokenId : Int}
    (hu : 0 ≤ u → u ∈ lib.userIds) : (lib.register hasBinder bundleName u tokenId).2.Tidy := by
  refine ⟨h.books, ?_⟩
  intro t info hinfo
  rcases FontClientRegistry.registerClient_cases (r := lib.registry) hasBinder true bundleName u
    tokenId with ⟨-, heq⟩ | ⟨-, -, heq⟩
  · simp only [FontLibrary.register, heq] at hinfo
    exact h.clients t info hinfo
  · simp only [FontLibrary.register, heq, FontClientRegistry.enrol,
      FontClientRegistry.info_cons] at hinfo
    split at hinfo
    · next ht =>
      obtain rfl := Option.some.inj hinfo
      exact ⟨ht ▸ rfl, hu⟩
    · exact h.clients t info hinfo

theorem Tidy.erase (h : lib.Tidy) (tokenId : Int) :
    Tidy { lib with registry := (lib.registry.eraseClient tokenId).2 } := by
  refine ⟨h.books, ?_⟩
  intro t info hinfo
  simp only [FontClientRegistry.info_eraseClient] at hinfo
  split at hinfo
  · cases hinfo
  · exact h.clients t info hinfo

end record

end FontLibrary
