import FontManager.Sequential.ScopeCleanup

open FontDefine FontManagerUtils FontLocation KeyedList ScopeCleanup Text

structure Font where
  slot : Slot
  record : Record
  content : List UInt8

namespace FontBook

structure Outcome where
  code : FontErrorCode
  book : List Font
  events : List FontEvent

def records (book : List Font) : List Record := book.map Font.record

def contents (book : List Font) : List (Slot × List UInt8) := book.map fun f => (f.slot, f.content)

def named (names : List Str) (f : Font) : Bool := names.any fun n => has Record.fullNames n f.record

def refuse (book : List Font) (code : FontErrorCode) : Outcome := ⟨code, book, []⟩

def accept (u : Int) (book : List Font) (f : Font) (names : List Str) : Outcome where
  code := .ok
  book := book ++ [f]
  events := [⟨.install, FontManager.getFormatFullName names, u⟩]

def discard (u : Int) (book : List Font) (f : Font) (name : Str) : Outcome where
  code := .ok
  book := book.filter fun g => g.slot ≠ f.slot
  events := [⟨.uninstall, name, u⟩]

def userFont (env : Env) (fd : Fd) : Font where
  slot := userSlot env fd
  record := Record.user (userSlot env fd).sandbox (getFullNamesByFd fd)
  content := fd.content

def scopeFont (u : Int) (env : Env) (fd : Fd) (scope : Int) (srcPath bundleName : Str)
    (tokenId : Int) : Font where
  slot := appSlot env fd (makeAppIdentifier scope tokenId)
  record := Record.ofInfo
    (installedInfo env (FontCall.info u fd scope srcPath bundleName tokenId))
  content := fd.content

def install (u limit : Int) (book : List Font) (env : Env) (fd : Fd) : Outcome :=
  if getFullNamesByFd fd = [] then refuse book .fileVerifyFail
  else if book.any (named (getFullNamesByFd fd)) then refuse book .installedAlrady
  else if (book.length : Int) ≥ limit then refuse book .maxFileCount
  else accept u book (userFont env fd) (getFullNamesByFd fd)

def uninstall (u : Int) (book : List Font) (name : Str) : Outcome :=
  if name = [] then refuse book .uninstallFileNotExists
  else
    match book.find? (named [name]) with
    | none => refuse book .uninstallFileNotExists
    | some f =>
      if f.slot.dir = none then discard u book f name else refuse book .uninstallFileNotExists

def located (srcPath : Str) (f : Font) : Bool := has Record.urls srcPath f.record

def installScope (u limit : Int) (book : List Font) (env : Env) (fd : Fd) (scope : Int)
    (srcPath bundleName : Str) (tokenId : Int) : Outcome :=
  if scope ≠ fontScopeApp ∧ scope ≠ fontScopeSession then refuse book .invalidParam
  else if book.any (located srcPath) then refuse book .installedAlrady
  else if (book.length : Int) ≥ limit then refuse book .maxFileCount
  else if getFullNamesByFd fd = [] then refuse book .fileVerifyFail
  else if book.any (named (getFullNamesByFd fd)) then refuse book .installedAlrady
  else accept u book (scopeFont u env fd scope srcPath bundleName tokenId) (getFullNamesByFd fd)

def uninstallScope (u : Int) (book : List Font) (srcPath bundleName : Str) (tokenId : Int) :
    Outcome :=
  if srcPath = [] then refuse book .scopeFontNotFound
  else
    match book.find? (located srcPath) with
    | none => refuse book .scopeFontNotFound
    | some f =>
      if FontManager.owns f.record.info bundleName tokenId then
        discard u book f (FontManager.getFormatFullName f.record.fullNames)
      else refuse book .scopeFontNotFound

def clean (u : Int) (book : List Font) (p : Record → Bool) : Outcome where
  code := .ok
  book := book.filter fun f => !p f.record
  events :=
    if book.any fun f => p f.record then
      [⟨.uninstall, FontManager.removedNames (RecordStore.collect p (records book)), u⟩]
    else []

def step (u limit : Int) (book : List Font) : FontCall → Outcome
  | .installFont env fd => install u limit book env fd
  | .uninstallFont name => uninstall u book name
  | .installScopeFont env fd scope srcPath bundleName tokenId =>
    installScope u limit book env fd scope srcPath bundleName tokenId
  | .uninstallScopeFont srcPath bundleName tokenId => uninstallScope u book srcPath bundleName tokenId
  | .cleanupAppScopeFonts scope tokenId =>
    clean u book (has Record.apps (makeAppIdentifier scope tokenId))
  | .cleanupScopeFontsByUser => clean u book (Record.inScope (· ≥ 0))
  | .cleanupAppScopeFontsByUser => clean u book (Record.inScope (· = fontScopeApp))

structure Tidy (book : List Font) : Prop where
  placed : ∀ f ∈ book, f.record.PlacedAt f.slot
  bare : ∀ f ∈ book, '\\' ∉ f.slot.name
  located : ∀ f ∈ book, f.slot.dir ≠ none → f.record.srcPath.isSome = true
  names : Apart (fun f : Font => f.record.fullNames) book
  urls : Apart (fun f : Font => f.record.urls) book
  slots : Apart (fun f : Font => [f.slot]) book

structure Fits (book : List Font) (c : FontCall) : Prop where
  names : StoreInvariant.NamesNulFree c
  urls : ∀ s ∈ c.url, s ≠ [] ∧ NulFree s
  bare : ∀ fd ∈ c.source, '\\' ∉ getFileName (getFilePathByFd fd)
  fresh : ∀ path ∈ c.target, ∀ f ∈ book, f.slot.sandbox ≠ path

namespace Tidy

variable {u limit : Int} {book : List Font} {f : Font}

theorem nil : Tidy [] :=
  ⟨by simp, by simp, by simp, apart_nil, apart_nil, apart_nil⟩

theorem sublist {book' : List Font} (h : Tidy book) (hs : book'.Sublist book) : Tidy book' where
  placed f hf := h.placed f (hs.subset hf)
  bare f hf := h.bare f (hs.subset hf)
  located f hf := h.located f (hs.subset hf)
  names := h.names.sublist hs
  urls := h.urls.sublist hs
  slots := h.slots.sublist hs

theorem append (h : Tidy book) (hplaced : f.record.PlacedAt f.slot) (hbare : '\\' ∉ f.slot.name)
    (hlocated : f.slot.dir ≠ none → f.record.srcPath.isSome = true)
    (hnames : ∀ g ∈ book, ∀ n ∈ g.record.fullNames, n ∉ f.record.fullNames)
    (hurls : ∀ g ∈ book, ∀ s ∈ g.record.urls, s ∉ f.record.urls)
    (hslots : ∀ g ∈ book, g.slot ≠ f.slot) : Tidy (book ++ [f]) := by
  have each : ∀ {p : Font → Prop}, (∀ g ∈ book, p g) → p f → ∀ g ∈ book ++ [f], p g := by
    intro p hbook hp g hg
    rcases List.mem_append.mp hg with hg | hg
    · exact hbook g hg
    · exact List.mem_singleton.mp hg ▸ hp
  refine ⟨each h.placed hplaced, each h.bare hbare, each h.located hlocated, ?_, ?_, ?_⟩
  · exact apart_append_singleton.mpr ⟨h.names, hnames⟩
  · exact apart_append_singleton.mpr ⟨h.urls, hurls⟩
  · refine apart_append_singleton.mpr ⟨h.slots, ?_⟩
    intro g hg s hs hs'
    exact hslots g hg ((List.mem_singleton.mp hs).symm.trans (List.mem_singleton.mp hs'))

end Tidy

section fonts

variable {u limit : Int} {book : List Font} {f : Font} {env : Env} {fd : Fd} {scope tokenId : Int}
  {srcPath bundleName name : Str}

theorem userFont_placed (env : Env) (fd : Fd) :
    (userFont env fd).record.PlacedAt (userFont env fd).slot := by
  have hvalid := userSlot_valid env fd
  exact ⟨hvalid, cStr_of_nulFree (sandbox_nulFree hvalid), Or.inl ⟨rfl, rfl, rfl⟩⟩

theorem scopeFont_placed (env : Env) (fd : Fd) (hscope : scope = fontScopeApp ∨ scope = fontScopeSession)
    (srcPath bundleName : Str) (tokenId : Int) :
    (scopeFont u env fd scope srcPath bundleName tokenId).record.PlacedAt
      (scopeFont u env fd scope srcPath bundleName tokenId).slot := by
  have hvalid := appSlot_valid env fd scope tokenId
  have hnonneg : scope ≥ 0 := by
    rcases hscope with rfl | rfl <;> decide
  refine ⟨hvalid, cStr_of_nulFree (sandbox_nulFree hvalid), Or.inr ⟨scope, tokenId, hscope, ?_⟩⟩
  exact ⟨if_pos hnonneg, FontCall.app_identifier env u fd scope srcPath bundleName tokenId, rfl⟩

theorem scopeFont_srcPath (hurl : srcPath ≠ [] ∧ NulFree srcPath) :
    (scopeFont u env fd scope srcPath bundleName tokenId).record.srcPath = some srcPath :=
  Record.optional_of_nulFree hurl.1 hurl.2

theorem bare_of_source (h : '\\' ∉ getFileName (getFilePathByFd fd)) :
    '\\' ∉ FontManager.taggedName env (getFileName (getFilePathByFd fd)) := by
  intro hmem
  apply h
  simp only [FontManager.taggedName, List.mem_append, List.mem_singleton] at hmem
  rcases hmem with (((hmem | hmem) | hmem) | hmem) | hmem
  · rcases mem_getFileTime hmem with hc | hc
    · cases hc
    · cases hc
  · cases hmem
  · exact absurd hmem (not_mem_decimal (by decide) (by decide) _)
  · cases hmem
  · exact hmem

theorem unnamed_of_any {names : List Str} (h : ¬ book.any (named names) = true) :
    ∀ g ∈ book, ∀ n ∈ g.record.fullNames, n ∉ names := by
  intro g hg n hn hmem
  apply h
  exact List.any_eq_true.mpr ⟨g, hg, List.any_eq_true.mpr ⟨n, hmem, has_iff.mpr hn⟩⟩

theorem unlocated_of_any (h : ¬ book.any (located srcPath) = true) :
    ∀ g ∈ book, srcPath ∉ g.record.urls := by
  intro g hg hmem
  apply h
  exact List.any_eq_true.mpr ⟨g, hg, has_iff.mpr hmem⟩

end fonts

section invariant

variable {u limit : Int} {book : List Font}

theorem tidy_discard (h : Tidy book) (f : Font) (name : Str) : Tidy (discard u book f name).book :=
  h.sublist List.filter_sublist

theorem tidy_install (h : Tidy book) {env : Env} {fd : Fd} (hfit : Fits book (.installFont env fd)) :
    Tidy (install u limit book env fd).book := by
  unfold install
  split
  · exact h
  · split
    · exact h
    · next hnames =>
      split
      · exact h
      · have hfull : (userFont env fd).record.fullNames = getFullNamesByFd fd :=
          StoreInvariant.user_fullNames (hfit.names fd rfl)
        apply h.append (userFont_placed env fd) (bare_of_source (hfit.bare fd rfl))
        · intro hdir
          exact absurd rfl hdir
        · intro g hg n hn hmem
          exact unnamed_of_any hnames g hg n hn (hfull ▸ hmem)
        · intro g _ s _ hs
          cases hs
        · intro g hg heq
          apply hfit.fresh _ (StoreInvariant.target_user env fd) g hg
          rw [heq]
          rfl

theorem tidy_uninstall (h : Tidy book) (name : Str) : Tidy (uninstall u book name).book := by
  unfold uninstall
  split
  · exact h
  · split
    · exact h
    · split
      · exact tidy_discard h _ _
      · exact h

theorem tidy_installScope (h : Tidy book) {env : Env} {fd : Fd} {scope : Int}
    {srcPath bundleName : Str} {tokenId : Int}
    (hfit : Fits book (.installScopeFont env fd scope srcPath bundleName tokenId)) :
    Tidy (installScope u limit book env fd scope srcPath bundleName tokenId).book := by
  have hurl := hfit.urls srcPath rfl
  unfold installScope
  split
  · exact h
  · next hscope =>
    split
    · exact h
    · next hlocated =>
      split
      · exact h
      · split
        · exact h
        · split
          · exact h
          · next hnames =>
            have hscope' : scope = fontScopeApp ∨ scope = fontScopeSession := by
              by_contra hno
              exact hscope (not_or.mp hno)
            have hfull :
                (scopeFont u env fd scope srcPath bundleName tokenId).record.fullNames =
                  getFullNamesByFd fd :=
              StoreInvariant.app_fullNames (hfit.names fd rfl)
            have hsrc : (scopeFont u env fd scope srcPath bundleName tokenId).record.srcPath =
              some srcPath := scopeFont_srcPath hurl
            apply h.append (scopeFont_placed env fd hscope' srcPath bundleName tokenId)
              (bare_of_source (hfit.bare fd rfl))
            · intro _
              rw [hsrc]
              rfl
            · intro g hg n hn hmem
              exact unnamed_of_any hnames g hg n hn (hfull ▸ hmem)
            · intro g hg s hs hmem
              rw [Record.urls, hsrc] at hmem
              obtain rfl := List.mem_singleton.mp hmem
              exact unlocated_of_any hlocated g hg hs
            · intro g hg heq
              apply hfit.fresh _ (StoreInvariant.target_app env fd scope srcPath bundleName tokenId)
                g hg
              rw [heq]
              rfl

theorem tidy_uninstallScope (h : Tidy book) (srcPath bundleName : Str) (tokenId : Int) :
    Tidy (uninstallScope u book srcPath bundleName tokenId).book := by
  unfold uninstallScope
  split
  · exact h
  · split
    · exact h
    · split
      · exact tidy_discard h _ _
      · exact h

theorem tidy_step (h : Tidy book) {c : FontCall} (hfit : Fits book c) :
    Tidy (step u limit book c).book := by
  cases c with
  | installFont env fd => exact tidy_install h hfit
  | uninstallFont name => exact tidy_uninstall h name
  | installScopeFont env fd scope srcPath bundleName tokenId => exact tidy_installScope h hfit
  | uninstallScopeFont srcPath bundleName tokenId => exact tidy_uninstallScope h _ _ _
  | cleanupAppScopeFonts scope tokenId => exact h.sublist List.filter_sublist
  | cleanupScopeFontsByUser => exact h.sublist List.filter_sublist
  | cleanupAppScopeFontsByUser => exact h.sublist List.filter_sublist

end invariant

end FontBook
