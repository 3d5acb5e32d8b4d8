import FontManager.Concurrent.NamedRecords
import Mathlib.Data.Multiset.AddSub

open FontDefine FontManagerUtils FontConfig CJson Interaction Program

inductive ScopeCall where
  | installScopeFont (env : Env) (fd : Fd) (scope : Int) (srcPath bundleName : Str) (tokenId : Int)
  | uninstallScopeFont (srcPath bundleName : Str) (tokenId : Int)
  | cleanupAppScopeFonts (scope tokenId : Int)
  | cleanupScopeFontsByUser
deriving DecidableEq

namespace ScopeCall

def fontCall : ScopeCall → FontCall
  | installScopeFont env fd scope srcPath bundleName tokenId =>
    .installScopeFont env fd scope srcPath bundleName tokenId
  | uninstallScopeFont srcPath bundleName tokenId => .uninstallScopeFont srcPath bundleName tokenId
  | cleanupAppScopeFonts scope tokenId => .cleanupAppScopeFonts scope tokenId
  | cleanupScopeFontsByUser => .cleanupScopeFontsByUser

def service (u : Int) : Service sig ScopeCall FontErrorCode World Io :=
  ⟨semantics, fun c => c.fontCall.program u⟩

end ScopeCall

namespace OwnedRemoval

abbrev ScopeSystem := System sig ScopeCall FontErrorCode World

abbrev Step := Event ScopeCall Io

def ownedBy (bundleName : Str) (tokenId : Int) (item : Json) : Bool :=
  FontManager.owns (parseScopeRecord item) bundleName tokenId

-- Past the check of the owner and not yet past the deletion.
def midway : FontTask FontErrorCode → Bool
  | .call (.config _ (.deleteScopeFontRecordByUrl _)) _ => true
  | .call (.file _) _ => true
  | _ => false

def undisturbed (items : List Json) (srcPath bundleName : Str) (tokenId : Int) : Op → Bool
  | .config _ (.deleteScopeFontRecordByUrl url) =>
    url ≠ srcPath ||
      ((items.eraseP (atUrl srcPath)).find? (atUrl srcPath)).all (ownedBy bundleName tokenId)
  | .config _ (.insertScopeFontRecord record) =>
    items.any (atUrl srcPath) || !atUrl srcPath (constructScopeCJSON record) ||
      ownedBy bundleName tokenId (constructScopeCJSON record)
  | _ => true

def spares (items : List Json) (o : Op) (t : Thread sig ScopeCall FontErrorCode) : Bool :=
  match t.label with
  | .uninstallScopeFont srcPath bundleName tokenId =>
    !midway t.program || undisturbed items srcPath bundleName tokenId o
  | _ => true

def orderly (u : Int) (s : ScopeSystem) : Step → Bool
  | .spawn _ => true
  | .act i io =>
    match s.operation (.act i io : Step) with
    | some o => (List.range s.threads.length).all fun j =>
      j = i || (s.threads[j]?).all (spares (listed (s.world.config u)) o)
    | none => true

def Removes (u : Int) (s s' : ScopeSystem) (item : Json) : Prop :=
  ∃ front back, listed (s.world.config u) = front ++ item :: back ∧
    listed (s'.world.config u) = front ++ back

def FirstOwned (items : List Json) (srcPath bundleName : Str) (tokenId : Int) : Prop :=
  ∀ item, items.find? (atUrl srcPath) = some item → ownedBy bundleName tokenId item = true

def Staged (u : Int) (srcPath bundleName : Str) (tokenId : Int) : FontTask FontErrorCode → Prop
  | .done _ => True
  | .call (.file _) _ => True
  | .call (.publishFontUpdate _) k => midway (k ()) = false
  | .call (.config v (.deleteScopeFontRecordByUrl url)) k =>
    v = u ∧ url = srcPath ∧ ∀ r, midway (k r) = false
  | .call (.config v (.getFontRecordByUrl url)) k =>
    v = u ∧ url = srcPath ∧ ∀ r, midway (k r) = true →
      ∃ record, r = some record ∧ FontManager.owns record bundleName tokenId = true
  | .call _ _ => False

section program

variable {u : Int} {srcPath bundleName : Str} {tokenId : Int}

theorem staged_files {α : Type} {p : FontTask α} {f : α → FontTask FontErrorCode}
    (hp : always (P := sig) (fun _ _ => True) (fun o => ∃ op, o = .file op) p)
    (hf : ∀ a, everywhere (Staged u srcPath bundleName tokenId) (f a)) :
    everywhere (Staged u srcPath bundleName tokenId) (p >>= f) :=
  everywhere_bind_always hp (fun o k ⟨op, ho⟩ => by subst ho; trivial) hf

theorem files : RemovalPermits (fun _ _ => True) fun o => ∃ op, o = .file op := ⟨fun op _ => ⟨op, rfl⟩⟩

theorem staged_uninstallScopeFont (u : Int) (srcPath bundleName : Str) (tokenId : Int) :
    everywhere (Staged u srcPath bundleName tokenId)
      (FontManager.uninstallScopeFont srcPath bundleName tokenId u) := by
  unfold FontManager.uninstallScopeFont
  split
  · trivial
  · refine everywhere_perform_bind ⟨rfl, rfl, fun r hr => ?_⟩ fun r => ?_
    · cases r with
      | none => cases hr
      | some record =>
        refine ⟨record, rfl, ?_⟩
        by_contra howns
        dsimp only at hr
        rw [if_neg howns] at hr
        cases hr
    · cases r with
      | none => trivial
      | some record =>
        dsimp only
        split
        · refine staged_files (files.validateAndResolveRealPath _ _) fun realPath => ?_
          refine staged_files (files.removeIfExists _) fun removed => ?_
          split
          · refine everywhere_perform_bind ⟨rfl, rfl, fun deleted => ?_⟩ fun deleted => ?_
            · cases deleted <;> rfl
            · cases deleted with
              | false => trivial
              | true => exact ⟨rfl, fun _ => trivial⟩
          · trivial
        · trivial

end program

def scopeOnly : Op → Prop
  | .config _ (.insertFontRecord _ _) => False
  | .config _ (.insertFontRecordIfUnderLimit _ _ _) => False
  | .config _ (.deleteFontRecord _) => False
  | .config _ (.deleteScopeFontRecordByAppId _) => False
  | _ => True

theorem permits (u : Int) : Permits (fun _ _ => True) scopeOnly u where
  file _ := trivial
  config op hop := by cases op <;> trivial
  limit := trivial
  publish _ := trivial

theorem scopeOnly_program (u : Int) (c : ScopeCall) :
    always (P := sig) (fun _ _ => True) scopeOnly (c.fontCall.program u) := by
  cases c with
  | installScopeFont env fd scope srcPath bundleName t =>
    exact (permits u).installScopeFont (fun _ _ => trivial) env _ rfl
  | uninstallScopeFont srcPath bundleName t => exact (permits u).uninstallScopeFont _ _ _
  | cleanupAppScopeFonts scope t => exact (permits u).cleanupAppScopeFonts _
  | cleanupScopeFontsByUser => exact (permits u).cleanupScopeFontsByUser

section items

variable {u : Int} {names : Str → List Str} {path srcPath bundleName : Str} {tokenId : Int}
  {items : List Json} {item : Json}

theorem parseScopeRecord_refresh (item : Json) :
    parseScopeRecord (refreshItem names path item) =
      { parseScopeRecord item with fullNames := fullNamesOf (refreshItem names path item) } := by
  simp only [parseScopeRecord, stringItem, numberItem]
  rw [Mutation.getObjectItem_refresh names path item (by decide) (by decide),
    Mutation.getObjectItem_refresh names path item (by decide) (by decide),
    Mutation.getObjectItem_refresh names path item (by decide) (by decide),
    Mutation.getObjectItem_refresh names path item (by decide) (by decide),
    Mutation.getObjectItem_refresh names path item (by decide) (by decide)]

theorem ownedBy_refresh (item : Json) :
    ownedBy bundleName tokenId (refreshItem names path item) = ownedBy bundleName tokenId item := by
  rw [ownedBy, parseScopeRecord_refresh]
  rfl

theorem atUrl_refresh (item : Json) :
    atUrl srcPath (refreshItem names path item) = atUrl srcPath item := by
  simp only [atUrl, stringItem]
  rw [Mutation.getObjectItem_refresh names path item (by decide) (by decide)]

theorem FirstOwned.refresh (h : FirstOwned items srcPath bundleName tokenId) :
    FirstOwned (items.map (refreshItem names path)) srcPath bundleName tokenId := by
  intro item hitem
  have hcomp : atUrl srcPath ∘ refreshItem names path = atUrl srcPath := funext atUrl_refresh
  rw [List.find?_map, hcomp] at hitem
  obtain ⟨old, hold, rfl⟩ := Option.map_eq_some_iff.mp hitem
  rw [ownedBy_refresh]
  exact h old hold

theorem FirstOwned.erase {url : Str} {v : Int} (h : FirstOwned items srcPath bundleName tokenId)
    (hspares : undisturbed items srcPath bundleName tokenId
      (.config v (.deleteScopeFontRecordByUrl url)) = true) :
    FirstOwned (items.eraseP (atUrl url)) srcPath bundleName tokenId := by
  intro item hitem
  by_cases hurl : url = srcPath
  · subst hurl
    have hnext := Bool.or_eq_true_iff.mp hspares
    simpa [hitem] using hnext
  · have hother : ∀ b, atUrl url b = true → atUrl srcPath b = false := by
      intro b hb
      simp only [atUrl, beq_iff_eq] at hb
      simp [atUrl, hb, hurl]
    rw [find_eraseP_of_disjoint hother] at hitem
    exact h item hitem

theorem FirstOwned.append {record : FontRecordInfo} {v : Int}
    (h : FirstOwned items srcPath bundleName tokenId)
    (hspares : undisturbed items srcPath bundleName tokenId (.config v (.insertScopeFontRecord record)) =
      true) : FirstOwned (items ++ [constructScopeCJSON record]) srcPath bundleName tokenId := by
  intro item hitem
  rw [List.find?_append] at hitem
  cases hfirst : items.find? (atUrl srcPath) with
  | some old =>
    rw [hfirst, Option.some_or] at hitem
    exact Option.some.inj hitem ▸ h old hfirst
  | none =>
    rw [hfirst, Option.none_or] at hitem
    obtain ⟨hat, hitem⟩ : atUrl srcPath (constructScopeCJSON record) = true ∧ _ = item := by
      simpa using hitem
    have hnone : items.any (atUrl srcPath) = false := by
      simpa [List.find?_eq_none] using hfirst
    simp only [undisturbed, hnone, hat, Bool.false_or, Bool.not_true] at hspares
    exact hitem ▸ hspares

theorem FirstOwned.sheds {w w' : World} (h : FontCount.Sheds u w w')
    (hw : FirstOwned (listed (w.config u)) srcPath bundleName tokenId) :
    FirstOwned (listed (w'.config u)) srcPath bundleName tokenId := by
  rcases h with h | h
  · exact h ▸ hw
  · intro item hitem
    rw [h] at hitem
    cases hitem

theorem FirstOwned.edit {op : ConfigOp} {v : Int} {json : Option Json} {json' : Json}
    {done failed : op.Reply} (hop : scopeOnly (.config v op))
    (hspares : undisturbed (listed json) srcPath bundleName tokenId (.config v op) = true)
    (hedit : op.edit names path json = .write json' done failed)
    (h : FirstOwned (listed json) srcPath bundleName tokenId) :
    FirstOwned (listed (some json')) srcPath bundleName tokenId := by
  rw [(Mutation.of_edit hedit).listed_eq]
  split
  · cases op with
    | insertScopeFontRecord record => exact h.append hspares
    | deleteScopeFontRecordByUrl url => exact h.erase hspares
    | checkAndUpdateFontRecord => exact h.refresh
    | insertFontRecord fontPath fullNames => exact hop.elim
    | insertFontRecordIfUnderLimit fontPath fullNames maxCount => exact hop.elim
    | deleteFontRecord fontPath => exact hop.elim
    | deleteScopeFontRecordByAppId id => exact hop.elim
    | _ => exact h
  · exact fun item hitem => by cases hitem

theorem FirstOwned.exec {w : World} {o : Op} (io : Io) (ho : scopeOnly o)
    (hspares : undisturbed (listed (w.config u)) srcPath bundleName tokenId o = true)
    (h : FirstOwned (listed (w.config u)) srcPath bundleName tokenId) :
    FirstOwned (listed ((w.exec o io).2.config u)) srcPath bundleName tokenId := by
  rcases FontCount.sheds_exec u w o io with hsheds | ⟨op, rfl, -, json', done, failed, hedit, hconfig⟩
  · exact h.sheds hsheds
  · exact hconfig ▸ h.edit ho hspares hedit

end items

section runs

variable {u : Int} {s s' : ScopeSystem} {e : Step} {l : ScopeCall} {srcPath bundleName : Str}
  {tokenId : Int}

def Kept (u : Int) (w : World) (t : Thread sig ScopeCall FontErrorCode) : Prop :=
  always (P := sig) (fun _ _ => True) scopeOnly t.program ∧
    ∀ srcPath bundleName tokenId, t.label = .uninstallScopeFont srcPath bundleName tokenId →
      everywhere (Staged u srcPath bundleName tokenId) t.program ∧
        (midway t.program = true → FirstOwned (listed (w.config u)) srcPath bundleName tokenId)

def Guarded (u : Int) (s : ScopeSystem) : Prop := ∀ t ∈ s.threads, Kept u s.world t

theorem midway_program (u : Int) (c : ScopeCall) (srcPath bundleName : Str) (tokenId : Int)
    (h : c = .uninstallScopeFont srcPath bundleName tokenId) :
    midway (c.fontCall.program u) = false := by
  subst h
  show midway (FontManager.uninstallScopeFont srcPath bundleName tokenId u) = false
  unfold FontManager.uninstallScopeFont
  split <;> rfl

theorem kept_program (u : Int) (w : World) (c : ScopeCall) : Kept u w ⟨c, c.fontCall.program u⟩ := by
  refine ⟨scopeOnly_program u c, fun srcPath bundleName tokenId hl => ⟨?_, fun hmidway => ?_⟩⟩
  · obtain rfl : c = _ := hl
    exact staged_uninstallScopeFont u srcPath bundleName tokenId
  · cases (midway_program u c _ _ _ hl).symm.trans hmidway

-- The thread that moves: its check starts the interval, its deletion ends it.
theorem kept_self {w : World} {o : Op} {k : o.Reply → FontTask FontErrorCode} (io : Io)
    (h : Kept u w ⟨l, .call o k⟩) : Kept u (w.exec o io).2 ⟨l, k (w.exec o io).1⟩ := by
  refine ⟨h.1.2 _ trivial, fun srcPath bundleName tokenId hl => ?_⟩
  obtain ⟨hstaged, hfirst⟩ := h.2 srcPath bundleName tokenId hl
  refine ⟨hstaged.2 _, fun hmidway => ?_⟩
  cases o with
  | file op => exact (hfirst rfl).sheds (FontCount.sheds_execFile u w io op)
  | publishFontUpdate event =>
    have hend : midway (k ()) = false := hstaged.1
    cases hend.symm.trans hmidway
  | config v op =>
    cases op with
    | getFontRecordByUrl url =>
      obtain ⟨rfl, rfl, hread⟩ := hstaged.1
      obtain ⟨record, hrecord, howns⟩ := hread _ hmidway
      have hfound : ((listed (w.config v)).find? (atUrl url)).map parseScopeRecord = some record := by
        cases hio : io.ok with
        | true =>
          rw [World.exec, World.execConfig_readable hio] at hrecord
          exact hrecord
        | false =>
          rw [World.exec, World.execConfig_unreadable hio] at hrecord
          cases hrecord
      intro item hitem
      have hsame : (listed (w.config v)).find? (atUrl url) = some item := hitem
      rw [hsame] at hfound
      obtain rfl := Option.some.inj hfound
      exact howns
    | deleteScopeFontRecordByUrl url =>
      obtain ⟨-, -, hend⟩ := hstaged.1
      cases (hend _).symm.trans hmidway
    | _ => exact hstaged.1.elim
  | _ => exact hstaged.1.elim

theorem kept_other {w : World} {o : Op} {t : Thread sig ScopeCall FontErrorCode} (io : Io)
    (ho : scopeOnly o) (hspares : spares (listed (w.config u)) o t = true) (h : Kept u w t) :
    Kept u (w.exec o io).2 t := by
  refine ⟨h.1, fun srcPath bundleName tokenId hl => ?_⟩
  obtain ⟨hstaged, hfirst⟩ := h.2 srcPath bundleName tokenId hl
  refine ⟨hstaged, fun hmidway => ?_⟩
  rw [spares, hl] at hspares
  simp only [hmidway, Bool.not_true, Bool.false_or] at hspares
  exact (hfirst hmidway).exec io ho hspares

theorem spares_of_orderly {i j : Nat} {io : Io} {o : Op} {t : Thread sig ScopeCall FontErrorCode}
    (hop : s.operation (.act i io : Step) = some o) (hok : orderly u s (.act i io) = true)
    (hj : s.threads[j]? = some t) (hij : j ≠ i) : spares (listed (s.world.config u)) o t = true := by
  simp only [orderly, hop, List.all_eq_true, List.mem_range, Bool.or_eq_true, decide_eq_true_eq] at hok
  have hspares := (hok j (List.getElem?_eq_some_iff.mp hj).1).resolve_left hij
  simpa [hj] using hspares

theorem guarded_step (hs : Guarded u s) (hok : orderly u s e = true)
    (h : (ScopeCall.service u).machine.next s e = some s') : Guarded u s' := by
  cases e with
  | spawn c =>
    obtain rfl := Service.next_spawn h
    intro t ht
    rcases List.mem_append.mp ht with ht | ht
    · exact hs t ht
    · exact List.mem_singleton.mp ht ▸ kept_program u s.world c
  | act i io =>
    obtain ⟨l, o, k, hthread, hop, rfl⟩ := Service.next_act h
    have hself := hs _ (List.mem_of_getElem? hthread)
    intro t ht
    rcases Service.mem_advance_cases ht with ⟨j, hij, hj⟩ | rfl
    · exact kept_other io hself.1.1 (spares_of_orderly hop hok hj hij) (hs t (List.mem_of_getElem? hj))
    · exact kept_self io hself

theorem guarded_run {w : World} {es : List Step}
    (hrun : (ScopeCall.service u).machine.Run (fun s e => orderly u s e = true) ⟨w, []⟩ es s) :
    Guarded u s :=
  hrun.invariant (fun _ _ _ hs hok hn => guarded_step hs hok hn) fun t ht => by cases ht

end runs

section removal

variable {u : Int} {item : Json}

theorem removed_eq {old front back : List Json} {p : Json → Bool}
    (hold : old = front ++ item :: back) (hnew : old.eraseP p = front ++ back) :
    old.find? p = some item := by
  rcases List.exists_or_eq_self_of_eraseP p old with hsame | ⟨a, l₁, l₂, hfirst, ha, hsplit, herase⟩
  · have hlength := congrArg List.length (hsame.symm.trans hnew)
    rw [hold] at hlength
    simp at hlength
  · have hperm : (a :: (front ++ back)).Perm (item :: (front ++ back)) := by
      rw [← hnew, herase]
      refine List.perm_middle.symm.trans ?_
      rw [← hsplit, hold]
      exact List.perm_middle.trans (by rw [← hnew, herase])
    have hcons : a ::ₘ (front ++ back : Multiset Json) = item ::ₘ (front ++ back : Multiset Json) :=
      Multiset.coe_eq_coe.mpr hperm
    have hfind : old.find? p = some a := by
      rw [hsplit, List.find?_append, List.find?_eq_none.mpr hfirst, List.find?_cons_of_pos ha]
      rfl
    rw [hfind, (Multiset.cons_inj_left _).mp hcons]

theorem removed_found {w w' : World} {url : Str} {front back : List Json}
    (hfound : ∃ found, (listed (w.config u)).find? (atUrl url) = some found)
    (hw : FontCount.Sheds u w w' ∨
      listed (w'.config u) = (listed (w.config u)).eraseP (atUrl url))
    (hold : listed (w.config u) = front ++ item :: back)
    (hnew : listed (w'.config u) = front ++ back) :
    (listed (w.config u)).find? (atUrl url) = some item := by
  rcases hw with (hw | hw) | hw
  · have hlength := congrArg List.length (hw.symm.trans hnew)
    rw [hold] at hlength
    simp at hlength
  · obtain ⟨rfl, rfl⟩ := List.append_eq_nil_iff.mp (hnew.symm.trans hw)
    obtain ⟨found, hfound⟩ := hfound
    rw [hold] at hfound ⊢
    rw [hfound, List.mem_singleton.mp (List.mem_of_find?_eq_some hfound)]
  · exact removed_eq hold (hw.symm.trans hnew)

theorem found_of_deletes {w : World} {url : Str} (io : Io) {front back : List Json}
    (hold : listed (w.config u) = front ++ item :: back)
    (hnew : listed ((w.exec (.config u (.deleteScopeFontRecordByUrl url)) io).2.config u) =
      front ++ back) : (listed (w.config u)).find? (atUrl url) = some item := by
  have hshorter : listed (w.config u) ≠ front ++ back := fun heq => by
    have hlength := congrArg List.length (hold.symm.trans heq)
    simp at hlength
  have hio : io.ok = true := Bool.eq_true_of_not_eq_false fun hio => hshorter (by
    rwa [World.exec, World.execConfig_unreadable hio] at hnew)
  cases hedit : (ConfigOp.deleteScopeFontRecordByUrl url).edit io.fullNames (configPath u)
      (w.config u) with
  | keep reply =>
    rw [World.exec, World.execConfig_readable hio, hedit, World.applyEdit] at hnew
    exact absurd hnew hshorter
  | write json' done failed =>
    refine removed_found (Mutation.found_deleteFirst hedit) ?_ hold hnew
    rcases FontCount.sheds_exec u w (.config u (.deleteScopeFontRecordByUrl url)) io with
      hsheds | ⟨op, heq, -, json, _, _, hwrite, hconfig⟩
    · exact Or.inl hsheds
    · obtain rfl : op = .deleteScopeFontRecordByUrl url := by simpa using heq.symm
      rw [hconfig]
      exact Or.inr ((Mutation.of_edit hwrite).listed_kept rfl)

theorem removed_owned {w : World} {es : List Step} {s s' : ScopeSystem} {i : Nat} {io : Io} {v : Int}
    {op : ConfigOp} {srcPath bundleName : Str} {tokenId : Int} {p : FontTask FontErrorCode}
    (hrun : (ScopeCall.service u).machine.Run (fun s e => orderly u s e = true) ⟨w, []⟩ es s)
    (hthread : s.threads[i]? = some ⟨.uninstallScopeFont srcPath bundleName tokenId, p⟩)
    (hop : s.operation (.act i io : Step) = some (.config v op))
    (hnext : (ScopeCall.service u).machine.next s (.act i io) = some s')
    (hremoves : Removes u s s' item) : ownedBy bundleName tokenId item = true := by
  obtain ⟨l, o, k, hact, ho, rfl⟩ := Service.next_act hnext
  obtain ⟨rfl, rfl⟩ := Thread.mk.inj (Option.some.inj (hthread.symm.trans hact))
  obtain rfl := Option.some.inj (hop.symm.trans ho)
  obtain ⟨hstaged, hfirst⟩ := (guarded_run hrun _ (List.mem_of_getElem? hact)).2 _ _ _ rfl
  obtain ⟨front, back, hold, hnew⟩ := hremoves
  cases op with
  | getFontRecordByUrl url =>
    have hlength := congrArg List.length (hold.symm.trans hnew)
    simp at hlength
  | deleteScopeFontRecordByUrl url =>
    obtain ⟨rfl, rfl, -⟩ := hstaged.1
    exact hfirst rfl item (found_of_deletes io hold hnew)
  | _ => exact hstaged.1.elim

end removal

section takeover

def installs (fullName srcPath : Str) (tokenId : Int) : Step :=
  .spawn (.installScopeFont (Sample.noon 0) (Sample.sourceFont fullName 1) fontScopeApp srcPath
    "b".toList tokenId)

def uninstall : ScopeCall := .uninstallScopeFont "/a".toList "b".toList 1

def uninstalling : List Step :=
  [installs "A".toList "/a".toList 1] ++ Sample.acts 0 17 ++ [.spawn uninstall] ++ Sample.acts 1 1

-- After the check the owner is cleaned up and another application installs under the same path.
def takenOver : List Step :=
  uninstalling ++ [.spawn (.cleanupAppScopeFonts fontScopeApp 1)] ++ Sample.acts 2 10 ++
    [installs "A".toList "/a".toList 2] ++ Sample.acts 3 17 ++ Sample.acts 1 3

-- Another application installs under a path of its own between the check and the deletion.
def attended : List Step :=
  uninstalling ++ [installs "B".toList "/b".toList 2] ++ Sample.acts 2 17 ++ Sample.acts 1 5

def removing (q : Json → Bool) (s : ScopeSystem) : Bool :=
  (s.threads[1]?).any (fun t => t.label = uninstall) &&
    (match s.operation (.act 1 {} : Step) with
    | some (.config _ _) => true
    | _ => false) &&
    match listed (s.world.config 100), (ScopeCall.service 100).machine.next s (.act 1 {}) with
    | item :: rest, some s' => q item && listed (s'.world.config 100) = rest
    | _, _ => false

theorem removal_of_removing {q : Json → Bool} {s : ScopeSystem} (h : removing q s = true) :
    ∃ s' p v op item, s.threads[1]? = some ⟨uninstall, p⟩ ∧
      s.operation (.act 1 {} : Step) = some (.config v op) ∧
      (ScopeCall.service 100).machine.next s (.act 1 {}) = some s' ∧ Removes 100 s s' item ∧
      q item = true := by
  rw [removing, Bool.and_eq_true, Bool.and_eq_true] at h
  obtain ⟨⟨hthread, hop⟩, hitem⟩ := h
  obtain ⟨⟨l, p⟩, hp, hl⟩ := Option.any_eq_true _ _ |>.mp hthread
  obtain rfl : l = uninstall := of_decide_eq_true hl
  split at hop
  · rename_i v op hconfig
    split at hitem
    · rename_i item rest s' hlisted hnext
      obtain ⟨hq, hrest⟩ := Bool.and_eq_true_iff.mp hitem
      exact ⟨s', p, v, op, item, hp, hconfig, hnext,
        ⟨[], rest, hlisted, of_decide_eq_true hrest⟩, hq⟩
    · cases hitem
  · cases hop

theorem foreign_removed :
    ¬ ∀ (u : Int) (w : World) (es : List Step) (s s' : ScopeSystem) (i : Nat) (io : Io) (v : Int)
      (op : ConfigOp) (srcPath bundleName : Str) (tokenId : Int) (p : FontTask FontErrorCode)
      (item : Json), (ScopeCall.service u).machine.Run (fun _ _ => True) ⟨w, []⟩ es s →
      s.threads[i]? = some ⟨.uninstallScopeFont srcPath bundleName tokenId, p⟩ →
      s.operation (.act i io : Step) = some (.config v op) →
      (ScopeCall.service u).machine.next s (.act i io) = some s' → Removes u s s' item →
      ownedBy bundleName tokenId item = true := by
  intro h
  obtain ⟨s, hrun, hs⟩ := Machine.exists_run_of_replay (m := (ScopeCall.service 100).machine)
    (fun _ _ => true) (removing fun item => !ownedBy "b".toList 1 item) ⟨.provisioned [100], []⟩
    takenOver (by decide +kernel)
  obtain ⟨s', p, v, op, item, hthread, hop, hnext, hremoves, hforeign⟩ := removal_of_removing hs
  rw [h 100 _ _ s s' 1 {} v op _ _ 1 p item (hrun.mono fun _ _ _ => trivial) hthread hop hnext
    hremoves] at hforeign
  cases hforeign

theorem owned_removed :
    ∃ (s s' : ScopeSystem) (item : Json), Removes 100 s s' item ∧
      ownedBy "b".toList 1 item = true := by
  obtain ⟨s, hrun, hs⟩ := Machine.exists_run_of_replay (m := (ScopeCall.service 100).machine)
    (orderly 100) (removing fun _ => true) ⟨.provisioned [100], []⟩ attended (by decide +kernel)
  obtain ⟨s', p, v, op, item, hthread, hop, hnext, hremoves, -⟩ := removal_of_removing hs
  exact ⟨s, s', item, hremoves, removed_owned hrun hthread hop hnext hremoves⟩

end takeover

end OwnedRemoval
