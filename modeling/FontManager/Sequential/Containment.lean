import FontManager.Interaction.Protocol
import FontManager.Store.Location

open FontDefine FontManagerUtils FontManager FontLocation Interaction

namespace FontLocation

section components

theorem mem_resolve {stack cs : List Str} (hstack : ∀ c ∈ stack, Plain c) (hcs : ∀ c ∈ cs, '/' ∉ c) :
    ∀ c ∈ resolve stack cs, Plain c := by
  induction cs generalizing stack with
  | nil =>
    intro c hc
    exact hstack c (List.mem_reverse.mp hc)
  | cons d cs ih =>
    obtain ⟨hd, hrest⟩ := List.forall_mem_cons.mp hcs
    unfold resolve
    split
    · exact ih hstack hrest
    · next hkeep =>
      obtain ⟨hnil, hdot⟩ := not_or.mp hkeep
      split
      · exact ih (fun c hc => hstack c (List.mem_of_mem_tail hc)) hrest
      · next hdotdot => exact ih (List.forall_mem_cons.mpr ⟨⟨hnil, hdot, hdotdot, hd⟩, hstack⟩) hrest

theorem noSlash_of_mem_splitOn {path c : Str} (h : c ∈ path.splitOn '/') : '/' ∉ c := by
  induction path generalizing c with
  | nil =>
    obtain rfl := List.mem_singleton.mp h
    simp
  | cons x path ih =>
    rw [List.splitOn_cons_eq_if_modifyHead] at h
    by_cases hx : x = '/'
    · rw [if_pos (beq_iff_eq.mpr hx)] at h
      rcases List.mem_cons.mp h with rfl | h
      · simp
      · exact ih h
    · rw [if_neg (beq_iff_eq.not.mpr hx)] at h
      obtain ⟨d, ds, hsplit⟩ := List.exists_cons_of_ne_nil (List.splitOn_ne_nil '/' path)
      rw [hsplit, List.modifyHead_cons] at h
      rw [hsplit] at ih
      rcases List.mem_cons.mp h with rfl | h
      · rintro (_ | ⟨_, hslash⟩)
        · exact hx rfl
        · exact ih List.mem_cons_self hslash
      · exact ih (List.mem_cons_of_mem d h)

theorem locate_plain (path : Str) : ∀ c ∈ locate path, Plain c :=
  mem_resolve (by simp) fun _ hc => noSlash_of_mem_splitOn hc

theorem splitOn_joinPath {cs : List Str} (h : ∀ c ∈ cs, Plain c) :
    (joinPath cs).splitOn '/' = [] :: cs := by
  have hsplit := splitOn_slash_joinPath (c := []) (by simp) fun c hc => (h c hc).noSlash
  rwa [List.nil_append] at hsplit

-- A directory leads a path as a string exactly when its components lead the path's.
theorem components_of_leading {ds cs : List Str} (hds : ∀ c ∈ ds, Plain c) (hcs : ∀ c ∈ cs, Plain c)
    (h : dirPath ds <+: joinPath cs) : ∃ rest, rest ≠ [] ∧ cs = ds ++ rest := by
  obtain ⟨name, hname⟩ := h
  have hsplit : (dirPath ds ++ name).splitOn '/' = [] :: ds ++ name.splitOn '/' := by
    rw [dirPath, List.append_assoc, List.singleton_append, List.splitOn_append_cons_self,
      splitOn_joinPath hds]
  rw [hname, splitOn_joinPath hcs, List.cons_append] at hsplit
  exact ⟨name.splitOn '/', List.splitOn_ne_nil '/' name, (List.cons.inj hsplit).2⟩

end components

structure Contained (u : Int) (path : Str) : Prop where
  noDots : ∀ c ∈ path.splitOn '/', c ≠ ['.'] ∧ c ≠ ['.', '.']
  leads : installPath u <+: path
  inside : userDir u <+: locate path
  proper : locate path ≠ userDir u
  foreign : ∀ v, v ≠ u → ¬ userDir v <+: locate path

section contained

variable {u : Int} {rest : List Str}

theorem contained_of_locate {path : Str} (hdots : ∀ c ∈ path.splitOn '/', c ≠ ['.'] ∧ c ≠ ['.', '.'])
    (hleads : installPath u <+: path) (hne : rest ≠ []) (hloc : locate path = userDir u ++ rest) :
    Contained u path where
  noDots := hdots
  leads := hleads
  inside := hloc ▸ List.prefix_append _ _
  proper := fun h => hne (List.append_right_eq_self.mp (hloc.symm.trans h))
  foreign := fun v hv hother => hv (userDir_leads (a := []) (by simpa [hloc] using hother))

theorem contained_joinPath (hplain : ∀ c ∈ userDir u ++ rest, Plain c) (hne : rest ≠ []) :
    Contained u (joinPath (userDir u ++ rest)) := by
  refine contained_of_locate (fun c hc => ?_) ?_ hne (locate_joinPath hplain)
  · rw [splitOn_joinPath hplain] at hc
    rcases List.mem_cons.mp hc with rfl | hc
    · exact ⟨by simp, by simp⟩
    · exact ⟨(hplain c hc).notDot, (hplain c hc).notDotDot⟩
  · rw [installPath_eq]
    exact dirPath_prefix_joinPath (userDir u) hne

theorem contained_dirPath (hplain : ∀ c ∈ userDir u ++ rest, Plain c) (hne : rest ≠ []) :
    Contained u (dirPath (userDir u ++ rest)) := by
  have hjoin := contained_joinPath hplain hne
  refine contained_of_locate (fun c hc => ?_) ?_ hne (locate_dirPath hplain)
  · rw [dirPath, List.splitOn_append_cons_self, List.splitOn_nil] at hc
    rcases List.mem_append.mp hc with hc | hc
    · exact hjoin.noDots c hc
    · obtain rfl := List.mem_singleton.mp hc
      exact ⟨by simp, by simp⟩
  · exact hjoin.leads.trans (List.prefix_append _ _)

theorem withSlash_installPath (u : Int) :
    withSlash (lexicallyNormal (installPath u)) = dirPath (userDir u) := by
  rw [lexicallyNormal_installPath, withSlash_joinPath (userDir_plain u) (by simp [userDir])]

theorem contained_of_leading {path : Str}
    (h : (withSlash (lexicallyNormal (installPath u))).isPrefixOf (lexicallyNormal path) = true) :
    Contained u (lexicallyNormal path) := by
  rw [withSlash_installPath, List.isPrefixOf_iff_prefix] at h
  by_cases hroot : locate path = []
  · rw [lexicallyNormal, hroot] at h
    have hshort := h.length_le
    simp [dirPath, userDir, serviceDir, joinPath] at hshort
  · rw [lexicallyNormal_of_locate rfl hroot] at h ⊢
    obtain ⟨rest, hne, hrest⟩ := components_of_leading (userDir_plain u) (locate_plain path) h
    rw [hrest]
    exact contained_joinPath (hrest ▸ locate_plain path) hne

end contained

section normal

-- std::filesystem::path::lexically_normal keeps a separator after an empty or dot last component.
def endsAsDirectory (path : Str) : Bool :=
  getFileName path = [] || getFileName path = ['.'] || getFileName path = ['.', '.']

def keptNormal (path : Str) : Str :=
  if endsAsDirectory path then withSlash (lexicallyNormal path) else lexicallyNormal path

theorem getFileName_dirPath_append (cs : List Str) (path : Str) :
    getFileName (dirPath cs ++ path) = getFileName path := by
  have hstop : ∀ l front : Str, (l ++ '/' :: front).takeWhile (· ≠ '/') = l.takeWhile (· ≠ '/') := by
    intro l front
    induction l with
    | nil => simp
    | cons x l ih => by_cases hx : x = '/' <;> simp_all
  rw [getFileName, getFileName, dirPath, List.append_assoc, List.singleton_append, Text.afterLast,
    Text.reverse_append_cons, hstop, Text.afterLast]

theorem getFileName_sandBoxPathToRealPath (u : Int) (path : Str) :
    getFileName (sandBoxPathToRealPath (installPath u) path) = getFileName path := by
  unfold FontManager.sandBoxPathToRealPath
  split
  · next h =>
    obtain ⟨name, rfl⟩ := List.isPrefixOf_iff_prefix.mp h
    rw [List.drop_left, installPath_eq, installPathApp_eq, getFileName_dirPath_append,
      getFileName_dirPath_append]
  · rw [installPath_eq, getFileName_dirPath_append, getFileName]
    exact Text.afterLast_of_not_mem (Text.not_mem_afterLast '/' path)

theorem withSlash_withSlash (path : Str) : withSlash (withSlash path) = withSlash path := by
  by_cases h : path = [] ∨ path.getLast? = some '/'
  · rw [withSlash, withSlash, if_pos h, if_pos h]
  · have hslash : withSlash path = path ++ ['/'] := if_neg h
    rw [hslash, withSlash, if_pos (.inr (by simp))]

-- The kept separator makes no difference to the two paths that are normalised here.
theorem keptNormal_agrees (u : Int) (path : Str) (h : escapes (getFileName path) = false) :
    keptNormal (sandBoxPathToRealPath (installPath u) path) =
        lexicallyNormal (sandBoxPathToRealPath (installPath u) path) ∧
      withSlash (keptNormal (installPath u)) = withSlash (lexicallyNormal (installPath u)) := by
  have hname : endsAsDirectory (sandBoxPathToRealPath (installPath u) path) = false := by
    rw [endsAsDirectory, getFileName_sandBoxPathToRealPath]
    simp only [escapes, Bool.or_eq_false_iff] at h
    simp only [h, Bool.or_self]
  refine ⟨?_, ?_⟩
  · rw [keptNormal, hname]
    rfl
  · rw [keptNormal]
    split
    · exact withSlash_withSlash _
    · rfl

end normal

end FontLocation

namespace Containment

def RemovesWithin (u : Int) : Op → Prop
  | .file (.removeAll path) => Contained u path
  | _ => True

-- weakly_canonical is lexical normalisation, where it does not fail.
def Canonical : (o : Op) → o.Reply → Prop
  | .file (.weaklyCanonical path), r =>
    ∀ canonical, r = some canonical → canonical = lexicallyNormal path
  | _, _ => True

def within (u : Int) : Protocol sig Unit where
  allows _ o := RemovesWithin u o
  replies _ o r := Canonical o r
  after _ _ _ := ()

theorem canonical_exec (w : World) (o : Op) (io : Io) : Canonical o (w.exec o io).1 := by
  cases o with
  | file op =>
    cases op with
    | weaklyCanonical path =>
      intro canonical h
      have hreply : (if io.ok then some (lexicallyNormal path) else none) = some canonical := h
      split at hreply
      · exact (Option.some.inj hreply).symm
      · cases hreply
    | _ => trivial
  | _ => trivial

variable {u : Int} {α β : Type}

abbrev Stays (u : Int) (post : α → Prop) (p : FontTask α) : Prop :=
  (within u).Follows (fun a _ => post a) () p

namespace Stays

theorem pure {post : α → Prop} {a : α} (h : post a) : Stays u post (Pure.pure a) := h

theorem bind {post : β → Prop} {mid : α → Prop} {p : FontTask α} {f : α → FontTask β}
    (hp : Stays u mid p) (hf : ∀ a, mid a → Stays u post (f a)) : Stays u post (p >>= f) :=
  Protocol.follows_bind (Protocol.follows_mono (fun a _ h => hf a h) hp)

theorem perform {post : α → Prop} {o : Op} {f : o.Reply → FontTask α} (h : RemovesWithin u o)
    (hf : ∀ r, Canonical o r → Stays u post (f r)) :
    Stays u post (Program.perform (P := sig) o >>= f) :=
  Protocol.follows_perform_bind h hf

theorem step {o : Op} (h : RemovesWithin u o) :
    Stays u (fun _ => True) (Program.perform (P := sig) o) := ⟨h, fun _ _ => trivial⟩

theorem along {post : α → Prop} {p : FontTask α} (h : Stays u post p) (w : World) (ios : List Io) :
    p.Along semantics (fun _ o _ => RemovesWithin u o) w ios ∧ post (p.run semantics w ios).1 := by
  obtain ⟨hsteps, _, hpost⟩ :=
    Protocol.follows_run (m := semantics) (fun _ w o io => canonical_exec w o io) h w ios
  exact ⟨hsteps.mono fun _ _ _ hstep => hstep.elim fun _ h => h, hpost⟩

theorem validateAndResolveRealPath (u : Int) (path : Str) :
    Stays u (fun result => result = [] ∨ Contained u result)
      (FontManager.validateAndResolveRealPath (installPath u) path) := by
  unfold FontManager.validateAndResolveRealPath
  split
  · exact pure (.inl rfl)
  · refine perform trivial fun r hr => ?_
    cases r with
    | none => exact pure (.inl rfl)
    | some canonicalStr =>
      refine perform trivial fun r' hr' => ?_
      cases r' with
      | none => exact pure (.inl rfl)
      | some canonicalInstall =>
        obtain rfl := hr canonicalStr rfl
        obtain rfl := hr' canonicalInstall rfl
        dsimp only
        split
        · next hprefix => exact pure (.inr (contained_of_leading hprefix))
        · exact pure (.inl rfl)

theorem removeFile {path : Str} (h : Contained u path) :
    Stays u (fun _ => True) (FontManagerUtils.removeFile path) := by
  unfold FontManagerUtils.removeFile
  refine perform trivial fun r _ => ?_
  cases r with
  | false => exact pure trivial
  | true => exact step h

theorem removeIfExists {path : Str} (h : path = [] ∨ Contained u path) :
    Stays u (fun _ => True) (FontManager.removeIfExists path) := by
  unfold FontManager.removeIfExists
  split
  · exact pure trivial
  · next hne =>
    refine perform trivial fun r _ => ?_
    cases r with
    | false => exact pure trivial
    | true => exact removeFile (h.resolve_left hne)

theorem uninstallFont (name : Str) (u : Int) :
    Stays u (fun _ => True) (FontManager.uninstallFont name u) := by
  unfold FontManager.uninstallFont
  split
  · exact pure trivial
  · refine perform trivial fun r _ => ?_
    cases r with
    | none => exact pure trivial
    | some record =>
      dsimp only
      split
      · exact pure trivial
      · refine bind (validateAndResolveRealPath u record.fontPath) fun path hpath => ?_
        split
        · exact pure trivial
        · refine bind (removeIfExists hpath) fun removed _ => ?_
          cases removed with
          | false => exact pure trivial
          | true =>
            refine perform trivial fun deleted _ => ?_
            split
            · exact bind (step trivial) fun _ _ => pure trivial
            · exact pure trivial

theorem uninstallScopeFont (srcPath bundleName : Str) (tokenId u : Int) :
    Stays u (fun _ => True) (FontManager.uninstallScopeFont srcPath bundleName tokenId u) := by
  unfold FontManager.uninstallScopeFont
  split
  · exact pure trivial
  · refine perform trivial fun r _ => ?_
    cases r with
    | none => exact pure trivial
    | some record =>
      dsimp only
      split
      · refine bind (validateAndResolveRealPath u record.fontPath) fun path hpath => ?_
        refine bind (removeIfExists hpath) fun removed _ => ?_
        cases removed with
        | false => exact pure trivial
        | true =>
          refine perform trivial fun deleted _ => ?_
          split
          · exact bind (step trivial) fun _ _ => pure trivial
          · exact pure trivial
      · exact pure trivial

theorem sweepRecords (u : Int) (records : List FontRecordInfo) :
    Stays u (fun _ => True) (FontManager.sweepRecords u records) := by
  induction records with
  | nil => exact pure trivial
  | cons record rest ih =>
    refine bind (validateAndResolveRealPath u record.fontPath) fun path hpath => ?_
    exact bind (removeIfExists hpath) fun _ _ => perform trivial fun _ _ => ih

theorem reportRemoved (u : Int) (records : List FontRecordInfo) :
    Stays u (fun _ => True) (FontManager.reportRemoved u records) := by
  unfold FontManager.reportRemoved
  split
  · exact pure trivial
  · exact step trivial

theorem deleteDir {path : Str} (h : Contained u path) :
    Stays u (fun _ => True) (FontManagerUtils.deleteDir path) := by
  refine perform trivial fun r _ => ?_
  cases r with
  | false => exact pure trivial
  | true => exact bind (step h) fun _ _ => pure trivial

theorem cleanupAppScopeFonts (scope tokenId u : Int) :
    Stays u (fun _ => True)
      (FontManager.cleanupAppScopeFonts (makeAppIdentifier scope tokenId) u) := by
  have happ : Contained u (getAppInstallPath u (makeAppIdentifier scope tokenId)) := by
    rw [getAppInstallPath_eq]
    exact contained_dirPath (appDir_plain u (makeAppIdentifier_plain scope tokenId)) (by simp)
  refine perform trivial fun records _ => bind (sweepRecords u records) fun _ _ => ?_
  exact bind (reportRemoved u records) fun _ _ => bind (deleteDir happ) fun _ _ => pure trivial

theorem cleanupScopeFontsByUser (u : Int) :
    Stays u (fun _ => True) (FontManager.cleanupScopeFontsByUser u) := by
  refine perform trivial fun records _ => bind (sweepRecords u records) fun _ _ => ?_
  exact bind (reportRemoved u records) fun _ _ => pure trivial

theorem cleanupAppScopeFontsByUser (u : Int) :
    Stays u (fun _ => True) (FontManager.cleanupAppScopeFontsByUser u) := by
  refine perform trivial fun records _ => bind (sweepRecords u records) fun _ _ => ?_
  exact bind (reportRemoved u records) fun _ _ => pure trivial

end Stays

-- Beside the loop, the cleanup of one application removes that application's directory.
theorem cleanups_stay_inside (u : Int) (w : World) (ios : List Io) :
    (∀ scope tokenId, (cleanupAppScopeFonts (makeAppIdentifier scope tokenId) u).Along semantics
      (fun _ o _ => RemovesWithin u o) w ios) ∧
    (cleanupScopeFontsByUser u).Along semantics (fun _ o _ => RemovesWithin u o) w ios ∧
    (cleanupAppScopeFontsByUser u).Along semantics (fun _ o _ => RemovesWithin u o) w ios :=
  ⟨fun scope tokenId => ((Stays.cleanupAppScopeFonts scope tokenId u).along w ios).1,
    ((Stays.cleanupScopeFontsByUser u).along w ios).1,
    ((Stays.cleanupAppScopeFontsByUser u).along w ios).1⟩

theorem deletion_stays_inside (u : Int) :
    (∀ path w ios,
      ((validateAndResolveRealPath (installPath u) path).run semantics w ios).1 = [] ∨
        Contained u ((validateAndResolveRealPath (installPath u) path).run semantics w ios).1) ∧
    (∀ name w ios,
      (uninstallFont name u).Along semantics (fun _ o _ => RemovesWithin u o) w ios) ∧
    (∀ srcPath bundleName tokenId w ios,
      (uninstallScopeFont srcPath bundleName tokenId u).Along semantics
        (fun _ o _ => RemovesWithin u o) w ios) ∧
    (∀ records w ios,
      (sweepRecords u records).Along semantics (fun _ o _ => RemovesWithin u o) w ios) :=
  ⟨fun path w ios => ((Stays.validateAndResolveRealPath u path).along w ios).2,
    fun name w ios => ((Stays.uninstallFont name u).along w ios).1,
    fun srcPath bundleName tokenId w ios =>
      ((Stays.uninstallScopeFont srcPath bundleName tokenId u).along w ios).1,
    fun records w ios => ((Stays.sweepRecords u records).along w ios).1⟩

end Containment
