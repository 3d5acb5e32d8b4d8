import FontManager.Sequential.FontBook
import FontManager.Sequential.SourcePrivacy

open FontDefine FontManagerUtils FontLocation KeyedList Interaction

namespace FontBook

def Faultless (io : Io) : Prop := io.ok = true ∧ io.sent = none ∧ io.write = .complete

theorem undisturbed_of_faultless (io : Io) (h : Faultless io) : ScopeCleanup.Undisturbed io :=
  ⟨h.1, h.2.2⟩

theorem isDir_iff {w : World} {l : Loc} : w.isDir l = true ↔ w.tree.lookup l = some .dir := by
  unfold World.isDir
  cases w.tree.lookup l with
  | none => simp
  | some e => cases e <;> simp

inductive Folder (u : Int) : Loc → Prop
  | user : Folder u (userDir u)
  | userTemp : Folder u (userDir u ++ [tempDir])
  | app (scope tokenId : Int) : Folder u (userDir u ++ [makeAppIdentifier scope tokenId])
  | appTemp (scope tokenId : Int) :
    Folder u (userDir u ++ [makeAppIdentifier scope tokenId] ++ [tempDir])

namespace Folder

variable {u : Int} {l : Loc} {s : Slot}

theorem below (h : Folder u l) : userDir u <+: l := by
  cases h with
  | user => exact List.prefix_rfl
  | userTemp => exact List.prefix_append _ _
  | app scope tokenId => exact List.prefix_append _ _
  | appTemp scope tokenId => exact (List.prefix_append _ _).trans (List.prefix_append _ _)

theorem ne_loc (h : Folder u l) (hs : s.Valid) : l ≠ s.loc u := by
  have cancel : ∀ {m : Loc}, userDir u ++ m = s.loc u → m = s.sub := List.append_cancel_left
  have hlast : ∀ {m : Loc} {c : Str}, m ++ [c] = s.sub → c = s.name := fun h =>
    List.singleton_inj.mp (List.append_inj' h rfl).2
  intro heq
  cases h with
  | user => simp [Slot.loc, Slot.sub] at heq
  | userTemp => exact tempDir_ne_name hs.tagged (hlast (m := []) (cancel heq)).symm
  | app scope tokenId =>
    exact makeAppIdentifier_ne hs.tagged scope tokenId (hlast (m := []) (cancel heq)).symm
  | appTemp scope tokenId =>
    rw [List.append_assoc] at heq
    exact tempDir_ne_name hs.tagged (hlast (m := [_]) (cancel heq)).symm

theorem ne_config (h : Folder u l) : l ≠ configLoc u := by
  intro heq
  cases h with
  | user => exact configLoc_ne_userDir u heq.symm
  | userTemp => exact configLoc_ne_append (by decide) heq.symm
  | app scope tokenId => exact configLoc_ne_append (fontConfigFile_ne_app scope tokenId) heq.symm
  | appTemp scope tokenId =>
    rw [List.append_assoc] at heq
    exact userDir_noPrefix_configLoc (fontConfigFile_ne_app scope tokenId)
      (FileTree.prefix_of_eq heq)

end Folder

def room (u : Int) (s : Slot) : Loc := userDir u ++ s.dir.toList

section room

variable {u : Int} {s : Slot} (hs : s.Valid)

theorem loc_room (u : Int) (s : Slot) : s.loc u = room u s ++ [s.name] := by
  rw [Slot.loc, Slot.sub, room, List.append_assoc]

theorem room_folder (h : ∀ d ∈ s.dir, ∃ scope t, d = makeAppIdentifier scope t) :
    Folder u (room u s) := by
  unfold room
  cases hd : s.dir with
  | none =>
    rw [Option.toList_none, List.append_nil]
    exact .user
  | some d =>
    obtain ⟨scope, t, rfl⟩ := h d hd
    exact .app scope t

theorem temp_folder (h : ∀ d ∈ s.dir, ∃ scope t, d = makeAppIdentifier scope t) :
    Folder u (room u s ++ [tempDir]) := by
  unfold room
  cases hd : s.dir with
  | none =>
    rw [Option.toList_none, List.append_nil]
    exact .userTemp
  | some d =>
    obtain ⟨scope, t, rfl⟩ := h d hd
    exact .appTemp scope t

theorem staged_below (u : Int) (s : Slot) : userDir u <+: room u s ++ [tempDir, s.name] := by
  rw [room, List.append_assoc]
  exact List.prefix_append _ _

include hs

theorem room_plain : ∀ c ∈ room u s, Plain c := root_plain hs u

theorem staged_not_folder {l : Loc} (hl : Folder u l) : ¬ room u s ++ [tempDir, s.name] <+: l := by
  intro hp
  have htag := hs.tagged
  have htemp := tempDir_ne_name htag
  unfold room at hp
  have hlen := hp.length_le
  obtain ⟨dir, name⟩ := s
  cases dir with
  | none =>
    cases hl with
    | user =>
      simp only [List.length_append, List.length_cons] at hlen
      omega
    | userTemp => simp at hlen
    | app scope t => simp at hlen
    | appTemp scope t =>
      simp only [Option.toList_none, List.append_nil, List.append_assoc,
        List.prefix_append_right_inj, List.cons_append, List.nil_append, List.cons_prefix_cons] at hp
      exact tempDir_ne_app scope t hp.1.symm
  | some d =>
    cases hl with
    | user =>
      simp only [List.length_append, List.length_cons] at hlen
      omega
    | userTemp => simp at hlen
    | app scope t => simp at hlen
    | appTemp scope t => simp at hlen

theorem staged_not_config : ¬ room u s ++ [tempDir, s.name] <+: configLoc u := by
  rw [room]
  apply configLoc_not_below hs
  · simp
  · intro c hc
    obtain rfl := Option.some.inj hc
    decide

theorem staged_not_loc {t : Slot} (ht : t.Valid) : ¬ room u s ++ [tempDir, s.name] <+: t.loc u := by
  intro hp
  rw [room, Slot.loc, List.append_assoc, List.prefix_append_right_inj] at hp
  obtain ⟨dir, name⟩ := s
  obtain ⟨dir', name'⟩ := t
  have hlen := hp.length_le
  cases dir with
  | none =>
    cases dir' with
    | none => simp [Slot.sub] at hlen
    | some d =>
      obtain ⟨scope, n, rfl⟩ := ht.owned d rfl
      simp only [Slot.sub, Option.toList_none, Option.toList_some, List.nil_append,
        List.cons_append, List.cons_prefix_cons] at hp
      exact tempDir_ne_app scope n hp.1.symm
  | some d => cases dir' <;> simp [Slot.sub] at hlen

end room

def Arranged (u : Int) (files : List (Slot × List UInt8)) (l : Loc) : Entry → Prop
  | .dir => Folder u l
  | .bytes _ => ∃ x ∈ files, x.1.loc u = l
  | .document _ => l = configLoc u

structure Shelf (u limit : Int) (rs : List Record) (files : List (Slot × List UInt8))
    (events : List FontEvent) (w : World) : Prop where
  view : View.Shows u (some rs) w
  valid : ∀ x ∈ files, x.1.Valid
  stored : ∀ x ∈ files, w.tree.lookup (x.1.loc u) = some (.bytes x.2)
  arranged : ∀ l e, userDir u <+: l → w.tree.lookup l = some e → Arranged u files l e
  root : w.isDir (userDir u) = true
  published : w.published = events
  limit : getMaxInstallNum w.maxInstallNum = limit

namespace Shelf

variable {u limit : Int} {rs : List Record} {files : List (Slot × List UInt8)}
  {events : List FontEvent} {w : World} {l : Loc} {s : Slot}

theorem dir_of_folder (h : Shelf u limit rs files events w) (hl : Folder u l)
    (hsome : w.tree.lookup l ≠ none) : w.isDir l = true := by
  rw [isDir_iff]
  cases hlook : w.tree.lookup l with
  | none => exact absurd hlook hsome
  | some e =>
    have harranged := h.arranged l e hl.below hlook
    cases e with
    | dir => rfl
    | bytes content =>
      obtain ⟨x, hx, hloc⟩ := harranged
      exact absurd hloc.symm (hl.ne_loc (h.valid x hx))
    | document json => exact absurd harranged hl.ne_config

theorem vacant (h : Shelf u limit rs files events w) (hbelow : userDir u <+: l)
    (hfolder : ¬ Folder u l) (hconfig : l ≠ configLoc u) (hfiles : ∀ x ∈ files, x.1.loc u ≠ l) :
    w.tree.lookup l = none := by
  cases hlook : w.tree.lookup l with
  | none => rfl
  | some e =>
    have harranged := h.arranged l e hbelow hlook
    cases e with
    | dir => exact absurd harranged hfolder
    | bytes content =>
      obtain ⟨x, hx, hloc⟩ := harranged
      exact absurd hloc (hfiles x hx)
    | document json => exact absurd harranged hconfig

theorem ofTree (h : Shelf u limit rs files events w) {t : FileTree Str Entry}
    {files' : List (Slot × List UInt8)}
    (hconfig : t.lookup (configLoc u) = w.tree.lookup (configLoc u))
    (hvalid : ∀ x ∈ files', x.1.Valid)
    (hstored : ∀ x ∈ files', t.lookup (x.1.loc u) = some (.bytes x.2))
    (harranged : ∀ l e, userDir u <+: l → t.lookup l = some e → Arranged u files' l e)
    (hroot : t.lookup (userDir u) = some .dir) :
    Shelf u limit rs files' events { w with tree := t } where
  view := (World.config_congr hconfig).trans h.view
  valid := hvalid
  stored := hstored
  arranged := harranged
  root := isDir_iff.mpr hroot
  published := h.published
  limit := h.limit

theorem addDir (h : Shelf u limit rs files events w) {path : Str} (hloc : locate path = l)
    (hl : Folder u l) (hnone : w.tree.lookup l = none) :
    Shelf u limit rs files events (w.put path .dir) := by
  subst hloc
  have hne : ∀ {m : Loc}, w.tree.lookup m ≠ none → locate path ≠ m := fun hm heq =>
    hm (heq ▸ hnone)
  have hother : ∀ {m : Loc}, w.tree.lookup m ≠ none →
      (w.tree.put (locate path) .dir).lookup m = w.tree.lookup m := fun hm =>
    FileTree.lookup_put_ne (hne hm)
  refine h.ofTree (FileTree.lookup_put_ne hl.ne_config) h.valid ?_ ?_ ?_
  · intro x hx
    have hstored := h.stored x hx
    rw [hother (by simp [hstored]), hstored]
  · intro m e hm hlook
    by_cases heq : locate path = m
    · subst heq
      rw [FileTree.lookup_put_self] at hlook
      obtain rfl := Option.some.inj hlook
      exact hl
    · rw [FileTree.lookup_put_ne heq] at hlook
      exact h.arranged m e hm hlook
  · have hroot := isDir_iff.mp h.root
    rw [hother (by simp [hroot]), hroot]

theorem addFile (h : Shelf u limit rs files events w) {t : FileTree Str Entry} (hs : s.Valid)
    {content : List UInt8} (hfresh : ∀ x ∈ files, x.1 ≠ s)
    (ht : ∀ l, userDir u <+: l → t.lookup l =
      if l = s.loc u then some (.bytes content) else w.tree.lookup l) :
    Shelf u limit rs (files ++ [(s, content)]) events { w with tree := t } := by
  have hself : userDir u <+: s.loc u := List.prefix_append _ _
  have hconfig : configLoc u ≠ s.loc u := fun heq =>
    configLoc_not_loc hs (FileTree.prefix_of_eq heq.symm)
  refine h.ofTree ?_ ?_ ?_ ?_ ?_
  · rw [ht _ (configLoc_below u), if_neg hconfig]
  · intro x hx
    rcases List.mem_append.mp hx with hx | hx
    · exact h.valid x hx
    · exact List.mem_singleton.mp hx ▸ hs
  · intro x hx
    rcases List.mem_append.mp hx with hx | hx
    · have hne : x.1.loc u ≠ s.loc u := fun heq =>
        hfresh x hx (loc_injective (h.valid x hx) hs heq)
      rw [ht (x.1.loc u) (List.prefix_append _ _), if_neg hne, h.stored x hx]
    · obtain rfl := List.mem_singleton.mp hx
      rw [ht (s.loc u) hself, if_pos rfl]
  · intro m e hm hlook
    rw [ht m hm] at hlook
    split at hlook
    · next heq =>
      obtain rfl := Option.some.inj hlook
      exact ⟨(s, content), by simp, heq.symm⟩
    · have harranged := h.arranged m e hm hlook
      cases e with
      | dir => exact harranged
      | bytes content' =>
        obtain ⟨x, hx, hloc⟩ := harranged
        exact ⟨x, List.mem_append_left _ hx, hloc⟩
      | document json => exact harranged
  · have hne : userDir u ≠ s.loc u := Folder.user.ne_loc hs
    rw [ht _ List.prefix_rfl, if_neg hne, isDir_iff.mp h.root]

theorem prune (h : Shelf u limit rs files events w) {r : Loc} (hconfig : ¬ r <+: configLoc u)
    (hroot : ¬ r <+: userDir u) {files' : List (Slot × List UInt8)}
    (hfiles : ∀ x, x ∈ files' ↔ x ∈ files ∧ ¬ r <+: x.1.loc u) :
    Shelf u limit rs files' events { w with tree := w.tree.prune r } := by
  refine h.ofTree ?_ ?_ ?_ ?_ ?_
  · rw [FileTree.lookup_prune_of_not_under hconfig]
  · intro x hx
    exact h.valid x ((hfiles x).mp hx).1
  · intro x hx
    obtain ⟨hmem, hnot⟩ := (hfiles x).mp hx
    rw [FileTree.lookup_prune_of_not_under hnot, h.stored x hmem]
  · intro m e hm hlook
    rw [FileTree.lookup_prune] at hlook
    split at hlook
    · cases hlook
    · next hnot =>
      have harranged := h.arranged m e hm hlook
      cases e with
      | dir => exact harranged
      | bytes content =>
        obtain ⟨x, hx, hloc⟩ := harranged
        exact ⟨x, (hfiles x).mpr ⟨hx, hloc ▸ hnot⟩, hloc⟩
      | document json => exact harranged
  · rw [FileTree.lookup_prune_of_not_under hroot, isDir_iff.mp h.root]

theorem write (h : Shelf u limit rs files events w) (rs' : List Record) :
    Shelf u limit rs' files events
      (w.put (configPath u) (.document (RecordStore.document rs'))) := by
  have hother : ∀ {m : Loc} {e : Entry}, configLoc u ≠ m →
      (w.put (configPath u) e).tree.lookup m = w.tree.lookup m := fun hm => by
    rw [World.put, locate_configPath, FileTree.lookup_put_ne hm]
  refine ⟨View.shows_put w rs', h.valid, ?_, ?_, ?_, h.published, h.limit⟩
  · intro x hx
    rw [hother fun heq => configLoc_not_loc (h.valid x hx) (FileTree.prefix_of_eq heq.symm),
      h.stored x hx]
  · intro m e hm hlook
    by_cases heq : configLoc u = m
    · subst heq
      rw [World.put, locate_configPath, FileTree.lookup_put_self] at hlook
      obtain rfl := Option.some.inj hlook
      rfl
    · rw [hother heq] at hlook
      exact h.arranged m e hm hlook
  · rw [isDir_iff, hother (configLoc_ne_userDir u), isDir_iff.mp h.root]

theorem publish (h : Shelf u limit rs files events w) (event : FontEvent) :
    Shelf u limit rs files (events ++ [event]) { w with published := w.published ++ [event] } :=
  ⟨h.view, h.valid, h.stored, h.arranged, h.root, by rw [h.published], h.limit⟩

end Shelf

end FontBook
