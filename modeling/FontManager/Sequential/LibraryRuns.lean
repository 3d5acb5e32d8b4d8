import FontManager.Sequential.LibraryRequests

open FontDefine FontManagerUtils FontLocation FontBook UserIsolation Interaction

namespace FontLibrary

theorem refinement : Refinement FontManagerServer.service Faultless ideal Kept where
  fault := ⟨rfl, rfl, rfl⟩
  call := by
    intro lib w q h hadmits
    exact request_kept h q hadmits

theorem kept_opened (userIds : List Int) : Kept (opened userIds) (.provisioned userIds) where
  users := rfl
  registry := rfl
  inside := (homed_provisioned id userIds).paths
  tidy := ⟨fun _ _ => .nil, fun _ _ hinfo => nomatch hinfo⟩
  displays _ hu := displays_provisioned hu
  published := rfl

theorem requests_keep_library {lib : FontLibrary} {w : World} (es : List (Request × List Io))
    (h : Kept lib w) (hadmitted : ideal.Admitted lib (es.map Prod.fst))
    (hios : ∀ e ∈ es, ∀ io ∈ e.2, Faultless io) :
    FontManagerServer.service.replies w es = ideal.replies lib (es.map Prod.fst) ∧
      Kept (ideal.after lib (es.map Prod.fst)) (FontManagerServer.service.after w es) :=
  refinement.sequence h hadmitted hios

section week

instance (lib : FontLibrary) : (e : Errand) → Decidable (lib.Admits e)
  | .call u c => inferInstanceAs (Decidable (0 ≤ u → u ∈ lib.userIds ∧ Fits (lib.books u) c))
  | .scopeOf u _ _ _ => inferInstanceAs (Decidable (0 ≤ u → u ∈ lib.userIds))
  | .register _ _ u _ => inferInstanceAs (Decidable (0 ≤ u → u ∈ lib.userIds))
  | .depart _ _ => instDecidableTrue
  | .sweep _ => instDecidableTrue

instance (lib : FontLibrary) (q : Request) : Decidable (ideal.admits lib q) :=
  inferInstanceAs (Decidable (lib.Admits q.errand))

def editor (userId tokenId : Int) : Caller := ⟨true, true, tokenId, userId, "editor".toList⟩

def stranger : Caller := ⟨false, false, 9, 101, "stranger".toList⟩

def session (tokenId : Int) (second : Nat) (name : Str) : Request :=
  .installScopeFont (editor 101 tokenId) (Sample.noon second) (Sample.sourceFont name 2) fontScopeSession
    ('/' :: name)

def week : List Request :=
  [.cleanupAllScopeFontsOnBoot,
    .installFont (editor 100 5) (Sample.noon 0) (Sample.sourceFont "A".toList 1),
    .installFont (editor 101 6) (Sample.noon 1) (Sample.sourceFont "A".toList 1),
    .installFont stranger (Sample.noon 2) (Sample.sourceFont "C".toList 3),
    .onFontObserver (editor 101 6) true,
    session 6 3 "B".toList,
    .getFontScope (editor 101 6) "/B".toList,
    .installScopeFont (editor 101 6) (Sample.noon 4) (Sample.sourceFont "D".toList 4) fontScopeApp "/D".toList,
    .clientDied 6,
    .getFontScope (editor 101 6) "/D".toList,
    .uninstallFont (editor 100 5) "A".toList,
    .cleanupUserScopeFonts 101,
    .getFontScope (editor 101 6) "/B".toList]

theorem week_keeps_library :
    FontManagerServer.service.replies (.provisioned [100, 101]) (week.map fun q => (q, [])) =
        [0, 0, 0, 201, 0, 0, 1, 0, 0, 31100112, 0, 0, 31100112] ∧
      Kept (ideal.after (opened [100, 101]) week)
        (FontManagerServer.service.after (.provisioned [100, 101]) (week.map fun q => (q, []))) := by
  have hrequests : (week.map fun q => (q, ([] : List Io))).map Prod.fst = week := rfl
  have hkept := requests_keep_library (week.map fun q => (q, [])) (kept_opened [100, 101])
    (by rw [hrequests]; decide) (by simp)
  rw [hrequests] at hkept
  exact ⟨hkept.1.trans rfl, hkept.2⟩

end week

end FontLibrary
