import FontManager.Source.Manager

open FontDefine FontManagerUtils Text

namespace FontLocation

structure Plain (c : Str) : Prop where
  nonempty : c ≠ []
  notDot : c ≠ ['.']
  notDotDot : c ≠ ['.', '.']
  noSlash : '/' ∉ c

instance (c : Str) : Decidable (Plain c) :=
  decidable_of_iff (c ≠ [] ∧ c ≠ ['.'] ∧ c ≠ ['.', '.'] ∧ '/' ∉ c)
    ⟨fun ⟨a, b, d, e⟩ => ⟨a, b, d, e⟩, fun ⟨a, b, d, e⟩ => ⟨a, b, d, e⟩⟩

theorem joinPath_append (cs ds : List Str) : joinPath (cs ++ ds) = joinPath cs ++ joinPath ds := by
  simp [joinPath]

theorem joinPath_cons (c : Str) (cs : List Str) : joinPath (c :: cs) = '/' :: c ++ joinPath cs := by
  simp [joinPath]

theorem splitOn_slash_joinPath {c : Str} {cs : List Str} (hc : '/' ∉ c) (hcs : ∀ d ∈ cs, '/' ∉ d) :
    (c ++ joinPath cs).splitOn '/' = c :: cs := by
  induction cs generalizing c with
  | nil => simpa [joinPath] using List.splitOn_eq_singleton hc
  | cons d cs ih =>
    obtain ⟨hd, hcs⟩ := List.forall_mem_cons.mp hcs
    have hshape : c ++ joinPath (d :: cs) = c ++ '/' :: (d ++ joinPath cs) := by
      simp [joinPath_cons]
    rw [hshape, List.splitOn_append_cons_self_of_not_mem hc, ih hd hcs]

theorem resolve_plain {cs : List Str} (h : ∀ c ∈ cs, Plain c) (stack : List Str) :
    resolve stack cs = stack.reverse ++ cs := by
  induction cs generalizing stack with
  | nil => simp [resolve]
  | cons c cs ih =>
    obtain ⟨hc, hcs⟩ := List.forall_mem_cons.mp h
    simp [resolve, hc.nonempty, hc.notDot, hc.notDotDot, ih hcs]

theorem resolve_append_nil {cs : List Str} (stack : List Str) :
    resolve stack (cs ++ [[]]) = resolve stack cs := by
  induction cs generalizing stack with
  | nil => simp [resolve]
  | cons c cs ih => simp only [List.cons_append, resolve, ih]

theorem locate_joinPath {cs : List Str} (h : ∀ c ∈ cs, Plain c) : locate (joinPath cs) = cs := by
  have hsplit := splitOn_slash_joinPath (c := []) (by simp) fun c hc => (h c hc).noSlash
  rw [List.nil_append] at hsplit
  rw [locate, hsplit]
  simp [resolve, resolve_plain h]

def dirPath (cs : List Str) : Str := joinPath cs ++ ['/']

theorem locate_dirPath {cs : List Str} (h : ∀ c ∈ cs, Plain c) : locate (dirPath cs) = cs := by
  have hshape : dirPath cs = [] ++ joinPath (cs ++ [[]]) := by simp [dirPath, joinPath]
  have hslash : ∀ c ∈ cs ++ [[]], '/' ∉ c := by
    intro c hc
    rcases List.mem_append.mp hc with hc | hc
    · exact (h c hc).noSlash
    · simp [List.mem_singleton.mp hc]
  rw [locate, hshape, splitOn_slash_joinPath (by simp) hslash]
  simp [resolve, resolve_append_nil, resolve_plain h]

theorem lexicallyNormal_of_locate {path : Str} {cs : List Str} (h : locate path = cs)
    (hcs : cs ≠ []) : lexicallyNormal path = joinPath cs := by
  cases cs with
  | nil => exact absurd rfl hcs
  | cons c cs => simp only [lexicallyNormal, h]

def serviceDir : Loc := ["data".toList, "service".toList, "el1".toList]

def fontsDir : Loc := ["for-all-app".toList, "fonts".toList]

def userDir (userId : Int) : Loc := serviceDir ++ decimal userId :: fontsDir

def publicDir : Loc := serviceDir ++ "public".toList :: fontsDir

def tempDir : Str := "temp".toList

theorem decimal_plain (n : Int) : Plain (decimal n) := by
  have hdot : '.' ∉ decimal n := not_mem_decimal (by decide) (by decide) n
  refine ⟨?_, ?_, ?_, not_mem_decimal (by decide) (by decide) n⟩
  · cases n with
    | ofNat n => exact Nat.toDigits_ne_nil
    | negSucc n => simp [decimal]
  · exact fun h => hdot (by simp [h])
  · exact fun h => hdot (by simp [h])

theorem userDir_plain (u : Int) : ∀ c ∈ userDir u, Plain c := by
  intro c hc
  have hservice : ∀ c ∈ serviceDir, Plain c := by decide
  have hfonts : ∀ c ∈ fontsDir, Plain c := by decide
  rcases List.mem_append.mp hc with hc | hc
  · exact hservice c hc
  · rcases List.mem_cons.mp hc with rfl | hc
    · exact decimal_plain u
    · exact hfonts c hc

theorem installPath_eq (u : Int) : installPath u = dirPath (userDir u) := by
  have hprefix : installPathPrefix = joinPath serviceDir ++ ['/'] := by decide
  have hsuffix : installPathSuffix = joinPath fontsDir ++ ['/'] := by decide
  rw [installPath, hprefix, hsuffix, dirPath, userDir, joinPath_append, joinPath_cons]
  simp only [List.append_assoc, List.cons_append, List.nil_append]

theorem installPathApp_eq : installPathApp = dirPath publicDir := by decide

theorem dirPath_append_name (cs : List Str) (name : Str) :
    dirPath cs ++ name = joinPath (cs ++ [name]) := by
  simp [dirPath, joinPath]

theorem dirPath_append_dir (cs : List Str) (name : Str) :
    dirPath cs ++ name ++ ['/'] = dirPath (cs ++ [name]) := by
  rw [dirPath_append_name, dirPath]

theorem getAppInstallPath_eq (u : Int) (id : Str) :
    FontManager.getAppInstallPath u id = dirPath (userDir u ++ [id]) := by
  rw [FontManager.getAppInstallPath, installPath_eq, dirPath_append_dir]

theorem appDir_plain (u : Int) {id : Str} (hid : Plain id) : ∀ c ∈ userDir u ++ [id], Plain c := by
  intro c hc
  rcases List.mem_append.mp hc with hc | hc
  · exact userDir_plain u c hc
  · exact List.mem_singleton.mp hc ▸ hid

theorem userDir_leads {u v : Int} {a b : Loc} (h : userDir u ++ a <+: userDir v ++ b) : u = v := by
  rw [userDir, userDir, List.append_assoc, List.append_assoc, List.prefix_append_right_inj,
    List.cons_append, List.cons_append, List.cons_prefix_cons] at h
  exact decimal_injective h.1

theorem userDir_unique {u v : Int} {l : Loc} (hu : userDir u <+: l) (hv : userDir v <+: l) : u = v := by
  obtain ⟨back, rfl⟩ := hv
  exact userDir_leads (a := []) (by simpa using hu)

theorem getFileName_dirPath (cs : List Str) {name : Str} (h : '/' ∉ name) :
    getFileName (dirPath cs ++ name) = name := by
  rw [getFileName, dirPath, List.append_assoc, List.singleton_append, afterLast_append _ h]

structure Tagged (name : Str) : Prop where
  plain : Plain name
  nulFree : NulFree name
  marked : ∀ c ∈ name.head?, c = '_' ∨ c.isDigit = true

theorem mem_pad {width n : Nat} {c : Char} (h : c ∈ pad width n) : c.isDigit = true := by
  rcases List.mem_append.mp h with h | h
  · rw [List.eq_of_mem_replicate h]
    rfl
  · exact isDigit_of_mem_toDigits h

theorem pad_ne_nil (width n : Nat) : pad width n ≠ [] := by
  simp [pad, Nat.toDigits_ne_nil]

theorem mem_getFileTime {t : Tm} {c : Char} (h : c ∈ getFileTime t) :
    c = '-' ∨ c.isDigit = true := by
  simp only [getFileTime] at h
  split at h
  · simp only [List.mem_append, List.mem_singleton] at h
    rcases h with ((((((h | h) | h) | h) | h) | h) | h)
    all_goals first | exact Or.inr (mem_pad h) | exact Or.inl h
  · cases h

theorem head_getFileTime {t : Tm} {c : Char} (h : c ∈ (getFileTime t).head?) :
    c.isDigit = true := by
  simp only [getFileTime] at h
  split at h
  · simp only [List.append_assoc] at h
    rw [List.head?_append_of_ne_nil _ (pad_ne_nil _ _)] at h
    exact mem_pad (List.mem_of_mem_head? h)
  · cases h

theorem sourceName_noSlash (fd : Fd) : '/' ∉ getFileName (getFilePathByFd fd) :=
  not_mem_afterLast '/' _

theorem sourceName_nulFree (fd : Fd) : NulFree (getFileName (getFilePathByFd fd)) := fun h =>
  cStr_nulFree (fd.link.getD []) (by
    rw [← uptoLast_append_afterLast '/' (cStr (fd.link.getD []))]
    exact List.mem_append_right _ h)

theorem taggedName_tagged (env : Env) (fd : Fd) :
    Tagged (FontManager.taggedName env (getFileName (getFilePathByFd fd))) := by
  have hbar : '_' ∈ FontManager.taggedName env (getFileName (getFilePathByFd fd)) := by
    simp [FontManager.taggedName]
  have hfree : ∀ c : Char, c ≠ '-' → c ≠ '_' → c.isDigit = false →
      c ∉ getFileName (getFilePathByFd fd) →
      c ∉ FontManager.taggedName env (getFileName (getFilePathByFd fd)) := by
    intro c hminus hbar hdigit hname hc
    simp only [FontManager.taggedName, List.mem_append, List.mem_singleton] at hc
    rcases hc with (((hc | hc) | hc) | hc) | hc
    · rcases mem_getFileTime hc with h | h
      · exact hminus h
      · simp [hdigit] at h
    · exact hbar hc
    · exact not_mem_decimal hminus hdigit _ hc
    · exact hbar hc
    · exact hname hc
  refine ⟨⟨?_, ?_, ?_, ?_⟩, ?_, ?_⟩
  · exact fun h => by simp [h] at hbar
  · exact fun h => by simp [h] at hbar
  · exact fun h => by simp [h] at hbar
  · exact hfree '/' (by decide) (by decide) (by decide) (sourceName_noSlash fd)
  · exact hfree '\x00' (by decide) (by decide) (by decide) (sourceName_nulFree fd)
  · intro c hc
    simp only [FontManager.taggedName, List.append_assoc, List.head?_append] at hc
    cases ht : (getFileTime env.clock).head? with
    | none => exact Or.inl (by simpa [ht] using hc.symm)
    | some d =>
      obtain rfl : d = c := by simpa [ht] using hc
      exact Or.inr (head_getFileTime (t := env.clock) (by simp [ht]))

theorem Tagged.head_ne {name other : Str} {c : Char} (h : Tagged name) (hc : c ∈ other.head?)
    (hbar : c ≠ '_') (hdigit : c.isDigit = false) : name ≠ other := by
  rintro rfl
  rcases h.marked c hc with hm | hm
  · exact hbar hm
  · simp [hdigit] at hm

theorem makeAppIdentifier_head (scope t : Int) :
    ∃ c ∈ (makeAppIdentifier scope t).head?, c = 'a' ∨ c = 's' := by
  unfold makeAppIdentifier
  split
  · exact ⟨'a', rfl, Or.inl rfl⟩
  · exact ⟨'s', rfl, Or.inr rfl⟩

theorem makeAppIdentifier_free {c : Char} (hminus : c ≠ '-') (hdigit : c.isDigit = false)
    (happ : c ∉ appFontDirPrefix) (hsession : c ∉ sessionFontDirPrefix) (scope t : Int) :
    c ∉ makeAppIdentifier scope t := by
  unfold makeAppIdentifier
  split
  · exact fun h => (List.mem_append.mp h).elim happ (not_mem_decimal hminus hdigit t)
  · exact fun h => (List.mem_append.mp h).elim hsession (not_mem_decimal hminus hdigit t)

theorem makeAppIdentifier_nulFree (scope t : Int) : NulFree (makeAppIdentifier scope t) :=
  makeAppIdentifier_free (by decide) (by decide) (by decide) (by decide) scope t

theorem makeAppIdentifier_plain (scope t : Int) : Plain (makeAppIdentifier scope t) := by
  have hdot := makeAppIdentifier_free (c := '.') (by decide) (by decide) (by decide) (by decide)
    scope t
  obtain ⟨c, hc, -⟩ := makeAppIdentifier_head scope t
  refine ⟨?_, ?_, ?_, ?_⟩
  · exact fun h => by simp [h] at hc
  · exact fun h => hdot (by simp [h])
  · exact fun h => hdot (by simp [h])
  · exact makeAppIdentifier_free (by decide) (by decide) (by decide) (by decide) scope t

theorem makeAppIdentifier_injective {scope scope' t t' : Int}
    (hs : scope = fontScopeApp ∨ scope = fontScopeSession)
    (hs' : scope' = fontScopeApp ∨ scope' = fontScopeSession)
    (h : makeAppIdentifier scope t = makeAppIdentifier scope' t') : scope = scope' ∧ t = t' := by
  have happ : ∀ n : Int, (appFontDirPrefix ++ decimal n).head? = some 'a' := fun n => rfl
  have hsession : ∀ n : Int, (sessionFontDirPrefix ++ decimal n).head? = some 's' := fun n => rfl
  have hne : fontScopeSession ≠ fontScopeApp := by decide
  rcases hs with rfl | rfl <;> rcases hs' with rfl | rfl <;>
    simp only [makeAppIdentifier, if_true, if_neg hne] at h
  · exact ⟨rfl, decimal_injective (List.append_cancel_left h)⟩
  · exact absurd (congrArg List.head? h) (by simp [happ, hsession])
  · exact absurd (congrArg List.head? h) (by simp [happ, hsession])
  · exact ⟨rfl, decimal_injective (List.append_cancel_left h)⟩

structure Slot where
  dir : Option Str
  name : Str
deriving DecidableEq

namespace Slot

def sub (s : Slot) : Loc := s.dir.toList ++ [s.name]

def sandbox (s : Slot) : Str := joinPath (publicDir ++ s.sub)

def loc (u : Int) (s : Slot) : Loc := userDir u ++ s.sub

structure Valid (s : Slot) : Prop where
  tagged : Tagged s.name
  owned : ∀ d ∈ s.dir, ∃ scope t, d = makeAppIdentifier scope t

end Slot

def realPath (u : Int) (fontPath : Str) : Str :=
  FontManager.sandBoxPathToRealPath (installPath u) fontPath

theorem sandbox_ne_nil (s : Slot) : s.sandbox ≠ [] := by
  simp [Slot.sandbox, Slot.sub, joinPath]

theorem sandbox_none (name : Str) : Slot.sandbox ⟨none, name⟩ = installPathApp ++ name := by
  rw [installPathApp_eq, dirPath_append_name]
  rfl

theorem sandbox_some (id name : Str) :
    Slot.sandbox ⟨some id, name⟩ = installPathApp ++ id ++ ['/'] ++ name := by
  rw [installPathApp_eq, dirPath_append_dir, dirPath_append_name]
  simp [Slot.sandbox, Slot.sub]

theorem realPath_sandbox (u : Int) (s : Slot) : realPath u s.sandbox = joinPath (s.loc u) := by
  obtain ⟨c, cs, hsub⟩ : ∃ c cs, s.sub = c :: cs := List.exists_cons_of_ne_nil (by simp [Slot.sub])
  have hshape : s.sandbox = installPathApp ++ (c ++ joinPath cs) := by
    rw [Slot.sandbox, joinPath_append, hsub, joinPath_cons, installPathApp_eq, dirPath]
    simp only [List.append_assoc, List.cons_append, List.nil_append]
  have hprefix : installPathApp.isPrefixOf s.sandbox = true := by
    rw [List.isPrefixOf_iff_prefix, hshape]
    exact List.prefix_append _ _
  rw [realPath, FontManager.sandBoxPathToRealPath, if_pos hprefix, hshape, List.drop_left,
    installPath_eq, dirPath, Slot.loc, joinPath_append, hsub, joinPath_cons]
  simp only [List.append_assoc, List.cons_append, List.nil_append]

theorem makeAppIdentifier_ne {name : Str} (h : Tagged name) (scope t : Int) :
    name ≠ makeAppIdentifier scope t := by
  obtain ⟨c, hc, rfl | rfl⟩ := makeAppIdentifier_head scope t
  · exact h.head_ne hc (by decide) (by decide)
  · exact h.head_ne hc (by decide) (by decide)

theorem dir_ne_name {dir : Option Str} {name d : Str}
    (h : ∀ d ∈ dir, ∃ scope t, d = makeAppIdentifier scope t) (hn : Tagged name) (hd : d ∈ dir) :
    d ≠ name := by
  obtain ⟨scope, t, rfl⟩ := h d hd
  exact (makeAppIdentifier_ne hn scope t).symm

theorem lexicallyNormal_installPath (u : Int) :
    lexicallyNormal (installPath u) = joinPath (userDir u) :=
  lexicallyNormal_of_locate (by rw [installPath_eq, locate_dirPath (userDir_plain u)])
    (by simp [userDir])

theorem withSlash_joinPath {cs : List Str} (h : ∀ c ∈ cs, Plain c) (hne : cs ≠ []) :
    FontManager.withSlash (joinPath cs) = dirPath cs := by
  obtain ⟨front, c, rfl⟩ := (List.eq_nil_or_concat' cs).resolve_left hne
  have hc := h c (by simp)
  obtain ⟨cfront, x, rfl⟩ := (List.eq_nil_or_concat' c).resolve_left hc.nonempty
  have hx : x ≠ '/' := fun he => hc.noSlash (by simp [he])
  have hshape : joinPath (front ++ [cfront ++ [x]]) = joinPath front ++ '/' :: cfront ++ [x] := by
    simp [joinPath]
  have hlast : (joinPath (front ++ [cfront ++ [x]])).getLast? = some x := by
    rw [hshape, List.getLast?_concat]
  rw [FontManager.withSlash, if_neg, dirPath]
  rintro (he | he)
  · simp [he] at hlast
  · exact hx (Option.some.inj (hlast.symm.trans he))

theorem dirPath_prefix_joinPath (cs : List Str) {ds : List Str} (hne : ds ≠ []) :
    dirPath cs <+: joinPath (cs ++ ds) := by
  obtain ⟨d, ds, rfl⟩ := List.exists_cons_of_ne_nil hne
  refine ⟨d ++ joinPath ds, ?_⟩
  rw [dirPath, joinPath_append, joinPath_cons]
  simp

theorem installDir_leads (u : Int) (s : Slot) :
    (FontManager.withSlash (lexicallyNormal (installPath u))).isPrefixOf (joinPath (s.loc u)) =
      true := by
  rw [lexicallyNormal_installPath, withSlash_joinPath (userDir_plain u) (by simp [userDir]),
    List.isPrefixOf_iff_prefix]
  exact dirPath_prefix_joinPath _ (by simp [Slot.sub])

section slots

variable {s s' : Slot} (h : s.Valid) (h' : s'.Valid)

include h

theorem sub_plain : ∀ c ∈ s.sub, Plain c := by
  intro c hc
  rcases List.mem_append.mp hc with hc | hc
  · obtain ⟨scope, t, rfl⟩ := h.owned c (by simpa using hc)
    exact makeAppIdentifier_plain scope t
  · exact List.mem_singleton.mp hc ▸ h.tagged.plain

theorem loc_plain (u : Int) : ∀ c ∈ s.loc u, Plain c := by
  intro c hc
  rcases List.mem_append.mp hc with hc | hc
  · exact userDir_plain u c hc
  · exact sub_plain h c hc

theorem root_plain (u : Int) : ∀ c ∈ userDir u ++ s.dir.toList, Plain c := fun c hc =>
  loc_plain h u c (by
    rw [Slot.loc, Slot.sub, ← List.append_assoc]
    exact List.mem_append_left _ hc)

theorem sub_nulFree : ∀ c ∈ s.sub, NulFree c := by
  intro c hc
  rcases List.mem_append.mp hc with hc | hc
  · obtain ⟨scope, t, rfl⟩ := h.owned c (by simpa using hc)
    exact makeAppIdentifier_nulFree scope t
  · exact List.mem_singleton.mp hc ▸ h.tagged.nulFree

theorem sandbox_plain : ∀ c ∈ publicDir ++ s.sub, Plain c := by
  have hpublic : ∀ c ∈ publicDir, Plain c := by decide
  intro c hc
  rcases List.mem_append.mp hc with hc | hc
  · exact hpublic c hc
  · exact sub_plain h c hc

theorem sandbox_nulFree : NulFree s.sandbox := by
  have hpublic : ∀ c ∈ publicDir, NulFree c := by decide
  intro hm
  obtain ⟨c, hc, hm⟩ := List.mem_flatMap.mp hm
  rcases List.mem_cons.mp hm with hm | hm
  · cases hm
  · rcases List.mem_append.mp hc with hc | hc
    · exact hpublic c hc hm
    · exact sub_nulFree h c hc hm

theorem getFileName_sandbox : getFileName s.sandbox = s.name := by
  have hshape : s.sandbox = dirPath (publicDir ++ s.dir.toList) ++ s.name := by
    rw [dirPath_append_name, Slot.sandbox, Slot.sub, List.append_assoc]
  rw [hshape, getFileName_dirPath _ h.tagged.plain.noSlash]

theorem locate_realPath (u : Int) : locate (realPath u s.sandbox) = s.loc u := by
  rw [realPath_sandbox, locate_joinPath (loc_plain h u)]

include h'

theorem sub_injective (he : s.sub = s'.sub) : s = s' := by
  obtain ⟨d, n⟩ := s
  obtain ⟨d', n'⟩ := s'
  cases d <;> cases d' <;> simp_all [Slot.sub]

theorem sandbox_injective (he : s.sandbox = s'.sandbox) : s = s' := by
  have hl := congrArg locate he
  rw [Slot.sandbox, Slot.sandbox, locate_joinPath (sandbox_plain h),
    locate_joinPath (sandbox_plain h')] at hl
  exact sub_injective h h' (List.append_cancel_left hl)

theorem loc_injective {u : Int} (he : s.loc u = s'.loc u) : s = s' :=
  sub_injective h h' (List.append_cancel_left he)

theorem loc_leads {u v : Int} (he : s.loc u <+: s'.loc v) : u = v ∧ s = s' := by
  obtain rfl := userDir_leads he
  rw [Slot.loc, Slot.loc, List.prefix_append_right_inj] at he
  refine ⟨rfl, ?_⟩
  have hname : s'.dir ≠ some s.name := fun hd => dir_ne_name h'.owned h.tagged hd rfl
  obtain ⟨d, n⟩ := s
  obtain ⟨d', n'⟩ := s'
  cases d with
  | none =>
    cases d' with
    | none => simpa [Slot.sub] using he
    | some d' =>
      obtain rfl : n = d' := by simpa [Slot.sub] using he
      exact absurd rfl hname
  | some d =>
    cases d' with
    | none => simp [Slot.sub] at he
    | some d' =>
      obtain ⟨rfl, rfl⟩ : d = d' ∧ n = n' := by simpa [Slot.sub] using he
      rfl

end slots

end FontLocation
