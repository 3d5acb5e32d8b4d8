import FontManager.Sequential.MigrationCopy
import FontManager.Store.Mutation

open FontDefine FontManagerUtils FontLocation FontConfig CJson Interaction DataMigrationManager

namespace Migration

variable {C : Type} {u : Int} {users : List Int} {files finished : List Loc} {w w' : World} {l : Loc}

-- What the user starts with at a place: an entry of its own, else the first shared file that is to go there.
def given (w : World) (files : List Loc) (u : Int) (l : Loc) : Option Entry :=
  (w.tree.lookup l).or ((files.find? fun f => decide (dest u f = l)).bind w.tree.lookup)

inductive Beside (u : Int) : Loc → Prop
  | name {b : Str} (hb : Plain b) : Beside u (userDir u ++ [b])
  | dir : Beside u (userDir u)
  | parent : Beside u (userDir u).dropLast

theorem userDir_length (u : Int) : (userDir u).length = 6 := by simp [userDir, serviceDir, fontsDir]

theorem Beside.not_temp (h : Beside u l) (v : Int) (f : Loc) : ¬ tempLoc v f <+: l := by
  intro hp
  have hle := hp.length_le
  cases h <;> simp [tempLoc, userDir_length] at hle

theorem Beside.not_shared (h : Beside u l) : ¬ publicDir <+: l := by
  intro hp
  cases h with
  | name hb =>
    obtain ⟨b, hb⟩ := hp
    exact publicDir_not_userDir (b := b) u (a := _) (FileTree.prefix_of_eq hb.symm)
  | dir =>
    obtain ⟨b, hb⟩ := hp
    exact publicDir_not_userDir (b := b) (a := []) u (FileTree.prefix_of_eq (by simp [hb]))
  | parent =>
    have hle := hp.length_le
    simp [publicDir, serviceDir, fontsDir, userDir] at hle

theorem Progress.lookup_beside (h : Progress (fun _ => True) users w files finished w') (hl : Beside u l)
    (hdone : ∀ f ∈ files, dest u f = l → (w'.tree.lookup l).isSome = true) :
    w'.tree.lookup l = given w files u l := by
  have same : w'.tree.lookup l = w.tree.lookup l → w'.tree.lookup l = given w files u l := by
    intro hsame
    cases hw : w.tree.lookup l with
    | some e => rw [hsame, given, hw, Option.some_or]
    | none =>
      have hnone : files.find? (fun f => decide (dest u f = l)) = none := by
        refine List.find?_eq_none.mpr fun f hf hfl => ?_
        have hsome := hdone f hf (of_decide_eq_true hfl)
        rw [hsame, hw] at hsome
        cases hsome
      rw [hsame, given, hw, hnone]
      rfl
  have inside : userDir u <+: l → w'.tree.lookup l = given w files u l := by
    intro hin
    rcases h.origin u l hin fun v g _ => hl.not_temp v g with hsame | ⟨g, -, -, -, hcopy, hfirst⟩
    · exact same hsame
    · obtain ⟨hw, hfind⟩ := hfirst trivial
      rw [hcopy, given, hw, hfind]
      rfl
  cases hl with
  | name hb => exact inside (List.prefix_append _ _)
  | dir => exact inside List.prefix_rfl
  | parent =>
    refine same (h.elsewhere _ Beside.parent.not_shared fun v _ hp => ?_)
    have hle := hp.length_le
    simp [userDir_length] at hle

section reading

theorem sandBoxPathToRealPath_configPath (u : Int) (p : Str) :
    sandBoxPathToRealPath (configPath u) p = dirPath (userDir u) ++ getFileName p := by
  have hdir : getFileDirectory (configPath u) = dirPath (userDir u) := by
    rw [configPath, installPath_eq, getFileDirectory, dirPath, List.append_assoc,
      List.singleton_append, Text.uptoLast_append _ (by decide)]
  rw [sandBoxPathToRealPath, hdir]

theorem resolve_plain_append {cs : List Str} (h : ∀ c ∈ cs, Plain c) (stack rest : List Str) :
    resolve stack (cs ++ rest) = resolve (cs.reverse ++ stack) rest := by
  induction cs generalizing stack with
  | nil => rfl
  | cons c cs ih =>
    obtain ⟨hc, hcs⟩ := List.forall_mem_cons.mp h
    simp [resolve, hc.nonempty, hc.notDot, hc.notDotDot, ih hcs]

theorem locate_inside {cs : Loc} (h : ∀ c ∈ cs, Plain c) {b : Str} (hb : '/' ∉ b) :
    locate (dirPath cs ++ b) = resolve cs.reverse [b] := by
  have hslash : ∀ c ∈ cs ++ [b], '/' ∉ c := by
    intro c hc
    rcases List.mem_append.mp hc with hc | hc
    · exact (h c hc).noSlash
    · exact List.mem_singleton.mp hc ▸ hb
  have hsplit := splitOn_slash_joinPath (c := []) (by simp) hslash
  rw [List.nil_append] at hsplit
  rw [locate, dirPath_append_name, hsplit]
  simp [resolve, resolve_plain_append h]

theorem beside_realPath (u : Int) (p : Str) :
    Beside u (locate (sandBoxPathToRealPath (configPath u) p)) := by
  have hslash : '/' ∉ getFileName p := Text.not_mem_afterLast '/' p
  rw [sandBoxPathToRealPath_configPath, locate_inside (userDir_plain u) hslash]
  generalize getFileName p = b at hslash
  by_cases hhere : b = [] ∨ b = ['.']
  · simpa [resolve, hhere] using Beside.dir (u := u)
  · by_cases habove : b = ['.', '.']
    · have hparent : (userDir u).reverse.tail.reverse = (userDir u).dropLast := by
        rw [List.tail_reverse, List.reverse_reverse]
      simpa [resolve, habove, hparent] using Beside.parent (u := u)
    · have hb : Plain b := ⟨fun h => hhere (.inl h), fun h => hhere (.inr h), habove, hslash⟩
      simpa [resolve, hhere, habove] using Beside.name (u := u) hb

end reading

section upgrade

variable {names names' : Str → List Str} {path : Str}

def namesIn (fontNames : Entry → List Str) (look : Loc → Option Entry) (p : Str) : List Str :=
  ((look (locate p)).map fontNames).getD []

def upgraded (names : Str → List Str) (path : Str) (j : Json) : Json :=
  match checkAndUpdateFontRecord names path (some j) with
  | .keep _ => j
  | .write j' _ _ => j'

def upgradeEntry (names : Str → List Str) (path : Str) : Entry → Entry
  | .document j => .document (upgraded names path j)
  | e => e

theorem upgraded_of_version {j : Json} (h : stringItem j fontVersion = some fontConfigVersion7) :
    upgraded names path j = j := by
  simp [upgraded, checkAndUpdateFontRecord, h]

theorem modifyFirst_congr {β : Type} {p : β → Bool} {f g : β → β} {l : List β}
    (h : ∀ b, l.find? p = some b → f b = g b) : modifyFirst p f l = modifyFirst p g l := by
  induction l with
  | nil => rfl
  | cons b l ih =>
    by_cases hb : p b = true
    · simp [modifyFirst, hb, h b (by simp [hb])]
    · simp only [modifyFirst, hb, Bool.false_eq_true, if_false]
      rw [ih fun b' hb' => h b' (by simpa [hb] using hb')]

theorem refreshFullNames_congr {j : Json}
    (h : ∀ item ∈ listed (some j), ∀ p, stringItem item fontPath = some p →
      names (sandBoxPathToRealPath path p) = names' (sandBoxPathToRealPath path p)) :
    refreshFullNames names path j = refreshFullNames names' path j := by
  cases j with
  | object fields =>
    refine congrArg Json.object (modifyFirst_congr fun field hfield => ?_)
    obtain ⟨key, value⟩ := field
    cases value with
    | array items =>
      have hlisted : listed (some (.object fields)) = items := by
        simp [listed, arrayItem, getObjectItem, hfield, arrayItems]
      have hitems : items.map (refreshItem names path) = items.map (refreshItem names' path) := by
        refine List.map_congr_left fun item hitem => ?_
        unfold refreshItem
        cases hp : stringItem item fontPath with
        | none => rfl
        | some p => simp only [h item (hlisted ▸ hitem) p hp]
      simp only [hitems]
    | _ => rfl
  | _ => rfl

theorem upgraded_congr {j : Json}
    (h : ∀ item ∈ listed (some j), ∀ p, stringItem item fontPath = some p →
      names (sandBoxPathToRealPath path p) = names' (sandBoxPathToRealPath path p)) :
    upgraded names path j = upgraded names' path j := by
  simp only [upgraded, checkAndUpdateFontRecord, refreshFullNames_congr h]

def refreshed (names : Str → List Str) (path : Str) (j item : Json) : Json :=
  if stringItem j fontVersion = some fontConfigVersion7 then item else refreshItem names path item

theorem getObjectItem_upgraded {j : Json} (h : stringItem j fontVersion ≠ some fontConfigVersion7) :
    getObjectItem (upgraded names path j) fontList =
      getObjectItem (refreshFullNames names path j) fontList := by
  unfold upgraded checkAndUpdateFontRecord
  simp only [if_neg h]
  by_cases hv : (numberItem j fontVersion).map valueint = some version
  · rw [if_pos hv]
    exact getObjectItem_replaceItemInObject_ne _ _ Mutation.version_ne_fontList
      Mutation.fontList_ne_version
  · rw [if_neg hv]
    exact getObjectItem_addItemToObject_ne _ _ Mutation.fontList_ne_version

theorem listed_upgraded (names : Str → List Str) (path : Str) (j : Json) :
    listed (some (upgraded names path j)) = (listed (some j)).map (refreshed names path j) := by
  by_cases h : stringItem j fontVersion = some fontConfigVersion7
  · have hid : refreshed names path j = id := funext fun item => if_pos h
    rw [hid, upgraded_of_version h, List.map_id]
  · have hrefresh : refreshed names path j = refreshItem names path := funext fun item => if_neg h
    rw [hrefresh]
    simp only [listed, Option.bind_some, arrayItem, getObjectItem_upgraded h, refreshFullNames,
      getObjectItem_modifyObjectItem]
    cases getObjectItem j fontList with
    | none => rfl
    | some list => cases list <;> rfl

theorem getObjectItem_refreshed (j item : Json) {name : Str} (h : sameKey fontFullName name = false)
    (h' : sameKey name fontFullName = false) :
    getObjectItem (refreshed names path j item) name = getObjectItem item name := by
  unfold refreshed
  split
  · rfl
  · exact Mutation.getObjectItem_refresh names path item h h'

end upgrade

section program

variable {ok : Process C → ProcessOp C → Io → Prop} {ready : Int → World → Prop}
  {fontNames : Entry → List Str}

structure Upgraded (fontNames : Entry → List Str) (users : List Int) (w w' : World) : Prop where
  frame : Frame (fun l => ∃ u ∈ users, l = configLoc u) w w'
  config : ∀ u ∈ users, w'.tree.lookup (configLoc u) = (w.tree.lookup (configLoc u)).map
    (upgradeEntry (namesIn fontNames w.tree.lookup) (configPath u))

theorem checkAndUpdate_config (w : World) (u : Int) {io : Io} (hread : io.ok = true)
    (hio : io.write = .complete) :
    ((w.execConfig u .checkAndUpdateFontRecord io).2.tree.lookup (configLoc u)) =
      (w.tree.lookup (configLoc u)).map (upgradeEntry io.fullNames (configPath u)) := by
  cases hlook : w.tree.lookup (configLoc u) with
  | none =>
    have hnone : w.config u = none := by rw [World.config_eq_match, hlook]
    rw [World.execConfig_readable hread, hnone]
    exact hlook
  | some e =>
    cases e with
    | document j =>
      have hsome : w.config u = some j := by rw [World.config_eq_match, hlook]
      rw [World.execConfig_readable hread, hsome]
      change (w.applyEdit (configPath u) io.write
        (checkAndUpdateFontRecord io.fullNames (configPath u) (some j))).2.tree.lookup _ = _
      cases hedit : checkAndUpdateFontRecord io.fullNames (configPath u) (some j) with
      | keep reply => simp [World.applyEdit, hlook, upgradeEntry, upgraded, hedit]
      | write j' done failed =>
        simp only [World.applyEdit, hio, World.writeFile, World.put, locate_configPath,
          FileTree.lookup_put_self, Option.map_some, upgradeEntry, upgraded, hedit]
    | _ =>
      have hnone : w.config u = none := by rw [World.config_eq_match, hlook]
      rw [World.execConfig_readable hread, hnone]
      exact hlook

theorem namesIn_congr {look look' : Loc → Option Entry} {p : Str} (h : look (locate p) = look' (locate p)) :
    namesIn fontNames look p = namesIn fontNames look' p := by
  rw [namesIn, namesIn, h]

theorem upgradeEntry_congr {names names' : Str → List Str}
    (h : ∀ p, names (sandBoxPathToRealPath (configPath u) p) =
      names' (sandBoxPathToRealPath (configPath u) p)) :
    upgradeEntry names (configPath u) = upgradeEntry names' (configPath u) := by
  funext e
  cases e with
  | document j => exact congrArg Entry.document (upgraded_congr fun _ _ p _ => h p)
  | _ => rfl

theorem Upgraded.refl (w : World) : Upgraded fontNames [] w w :=
  ⟨.refl _ w, fun u hu => by cases hu⟩

theorem beside_ne_configLoc {v : Int} (h : Beside u l) (hv : u ≠ v) : l ≠ configLoc v := by
  intro he
  have hlen := congrArg List.length he
  cases h with
  | name hb => exact hv (userDir_leads (FileTree.prefix_of_eq he))
  | dir => simp [configLoc, userDir_length] at hlen
  | parent => simp [configLoc, userDir_length] at hlen

theorem Upgraded.cons {io : Io} (hu : u ∉ users) (hread : io.ok = true) (hwrite : io.write = .complete)
    (hnames : io.fullNames = namesIn fontNames w.tree.lookup)
    (h : Upgraded fontNames users (w.execConfig u .checkAndUpdateFontRecord io).2 w') :
    Upgraded fontNames (u :: users) w w' := by
  have hstep := World.execConfig_frame w u .checkAndUpdateFontRecord io
  refine ⟨(hstep.mono fun l hl => ⟨u, by simp, hl⟩).step (h.frame.mono fun l ⟨v, hv, hl⟩ =>
    ⟨v, List.mem_cons_of_mem _ hv, hl⟩), fun v hv => ?_⟩
  rcases List.mem_cons.mp hv with rfl | hv
  · have hlater : ¬ ∃ v' ∈ users, configLoc v = configLoc v' := fun ⟨v', hv', he⟩ =>
      hu (configLoc_injective he ▸ hv')
    rw [h.frame.tree _ hlater, checkAndUpdate_config w v hread hwrite, hnames]
  · have hne : u ≠ v := fun he => hu (he ▸ hv)
    rw [h.config v hv, hstep.tree _ fun he => hne (configLoc_injective he.symm)]
    refine congrArg (Option.map · _) (upgradeEntry_congr fun p => namesIn_congr ?_)
    exact hstep.tree _ (beside_ne_configLoc (beside_realPath v p) hne.symm)

theorem checkAndUpdateAllFontRecord_steady (hnodup : users.Nodup)
    (hok : ∀ s io u, ok s (.font (.config u .checkAndUpdateFontRecord)) io →
      io.ok = true ∧ io.write = .complete ∧
        io.fullNames = namesIn fontNames s.world.tree.lookup ∧ ready u s.world)
    (hready : ∀ u w w', Frame (fun l => ∃ v, v ≠ u ∧ l = configLoc v) w w' → ready u w' → ready u w)
    (s : Process C) :
    Steady ok (fun _ => True) (checkAndUpdateAllFontRecord users)
      (fun _ s' => Upgraded fontNames users s.world s'.world ∧ ∀ u ∈ users, ready u s.world) s := by
  induction users generalizing s with
  | nil => exact .pure trivial ⟨.refl s.world, fun u hu => by cases hu⟩
  | cons u users ih =>
    obtain ⟨hu, hnodup⟩ := List.nodup_cons.mp hnodup
    refine ⟨trivial, fun io hio => ?_⟩
    obtain ⟨hread, hwrite, hnames, hr⟩ := hok s io u hio
    refine (ih hnodup _).mono (fun _ h => h) fun _ s' _ ⟨hup, hrest⟩ => ⟨hup.cons hu hread hwrite hnames, ?_⟩
    intro v hv
    rcases List.mem_cons.mp hv with rfl | hv
    · exact hr
    · refine hready v _ _ ?_ (hrest v hv)
      refine (World.execConfig_frame s.world u .checkAndUpdateFontRecord io).mono fun l hl => ?_
      exact ⟨u, fun he => hu (he ▸ hv), hl⟩

end program

end Migration
