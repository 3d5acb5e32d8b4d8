import FontManager.Interaction.Execution
import FontManager.Source.Migration
import FontManager.Store.Contracts

open FontDefine FontManagerUtils FontLocation Interaction DataMigrationManager

namespace World

variable {w : World} {path src dest : Str} {e : Entry} {ok : Bool}

theorem entry_of_openFile (h : w.openFile path ok = some e) : w.entry path = some e := by
  unfold openFile at h
  split at h
  · cases h
  · split at h
    · exact h
    · cases h

theorem copyEntry_frame (w : World) (source : Entry) (path : Str) (io : Io) :
    Frame (· = locate path) w (w.copyEntry source path io).2 := by
  unfold copyEntry
  split
  · exact .refl _ w
  · exact copy_frame w _ path io
  · split
    · exact .refl _ w
    · split
      · exact frame_put w path _
      · exact frame_put w path _

theorem copyEntry_content {io : Io} (h : (w.copyEntry e path io).1 = true) :
    (w.copyEntry e path io).2.entry path = some e := by
  unfold copyEntry at h ⊢
  cases e with
  | dir => cases h
  | bytes content => exact Ensures.copy_content h
  | document json =>
    dsimp only at h ⊢
    split at h
    · cases h
    · split at h
      · cases h
      · rename_i hhold hwhole
        simp [hhold, hwhole, entry, put]

theorem renameEntry_frame (w : World) (src dest : Str) (ok : Bool) :
    Frame (FileOp.rename src dest).touches w (w.renameEntry src dest ok).2 := by
  unfold renameEntry
  split
  · exact .refl _ w
  · refine .ofTree fun loc hloc => ?_
    rw [FileTree.lookup_put_ne fun h => hloc (Or.inr h.symm),
      FileTree.lookup_prune_of_not_under fun h => hloc (Or.inl h)]

theorem renameEntry_refused (h : (w.renameEntry src dest ok).1 = false) :
    (w.renameEntry src dest ok).2 = w := by
  unfold renameEntry at h ⊢
  split at h
  · rfl
  · cases h

theorem renameEntry_content (hsrc : w.entry src = some e)
    (h : (w.renameEntry src dest ok).1 = true) : (w.renameEntry src dest ok).2.entry dest = some e := by
  unfold renameEntry at h ⊢
  split at h
  · cases h
  · rename_i e' he'
    obtain rfl := Option.some.inj (hsrc.symm.trans (entry_of_openFile he'))
    simp [entry]

end World

def Entry.isFile : Entry → Bool
  | .dir => false
  | _ => true

abbrev Process.withWorld {C : Type} (s : Process C) (w : World) : Process C := { s with world := w }

namespace Migration

variable {C : Type} {ok : Process C → ProcessOp C → Io → Prop} {u : Int} {f : Loc}

def fileName (f : Loc) : Str := getFileName (joinPath f)

def dest (u : Int) (f : Loc) : Loc := userDir u ++ [fileName f]

def tempLoc (u : Int) (f : Loc) : Loc := userDir u ++ [tempDir, fileName f]

structure Listed (f : Loc) : Prop where
  plain : ∀ c ∈ f, Plain c
  shared : publicDir <+: f

theorem Listed.fileName_plain (h : Listed f) : Plain (fileName f) := by
  have hne : f ≠ [] := fun he => by
    have hshared := h.shared
    rw [he] at hshared
    exact absurd (List.prefix_nil.mp hshared) (by decide)
  obtain ⟨front, c, rfl⟩ := (List.eq_nil_or_concat' f).resolve_left hne
  have hc : Plain c := h.plain c (by simp)
  rwa [fileName, ← dirPath_append_name, getFileName_dirPath _ hc.noSlash]

theorem Listed.locate_path (h : Listed f) : locate (joinPath f) = f := locate_joinPath h.plain

theorem userPath_eq (u : Int) : userPath u = dirPath (userDir u) := installPath_eq u

theorem locate_dest (h : Listed f) (u : Int) :
    locate (userPath u ++ getFileName (joinPath f)) = dest u f := by
  rw [userPath_eq]
  exact locate_name (userDir_plain u) h.fileName_plain

theorem locate_temp (h : Listed f) (u : Int) :
    locate (userPath u ++ tempFile ++ getFileName (joinPath f)) =
      tempLoc u f := by
  rw [userPath_eq]
  exact locate_tempFile (userDir_plain u) h.fileName_plain

theorem publicDir_not_userDir {a b : Loc} (u : Int) : ¬ userDir u ++ a <+: publicDir ++ b := by
  intro h
  rw [userDir, publicDir, List.append_assoc, List.append_assoc, List.prefix_append_right_inj,
    List.cons_append, List.cons_append, List.cons_prefix_cons] at h
  have hp : 'p' ∉ Text.decimal u := Text.not_mem_decimal (by decide) (by decide) u
  exact hp (by simp [h.1])

theorem not_shared_of_below {l : Loc} (h : userDir u <+: l) : ¬ publicDir <+: l := by
  rintro ⟨b, rfl⟩
  exact publicDir_not_userDir (a := []) u (by simpa using h)

theorem shared_not_copied {g : Loc} (h : publicDir <+: g) (name : Str) :
    ¬ CopyTouches (userDir u) name g := by
  obtain ⟨b, rfl⟩ := h
  rintro (hp | he)
  · exact publicDir_not_userDir u hp
  · have hpre := FileTree.prefix_of_eq he.symm
    exact publicDir_not_userDir u hpre

-- trusted says that the existence of the destination was answered truly.
structure Copying (trusted : Prop) (u : Int) (f : Loc) (w w' : World) : Prop where
  frame : Frame (CopyTouches (userDir u) (fileName f)) w w'
  kept : w'.tree.lookup (dest u f) = w.tree.lookup (dest u f) ∨
    (∃ e, w.tree.lookup f = some e ∧ w'.tree.lookup (dest u f) = some e) ∧
      (trusted → w.tree.lookup (dest u f) = none)

theorem Copying.refl (trusted : Prop) (u : Int) (f : Loc) (w : World) : Copying trusted u f w w :=
  ⟨.refl _ w, .inl rfl⟩

theorem tempLoc_not_dest {v : Int} {g : Loc} : ¬ tempLoc u f <+: dest v g := fun h => by
  simpa [tempLoc, dest, userDir] using h.length_le

theorem Copying.occupied {trusted : Prop} {w w' : World} (h : Copying trusted u f w w') {v : Int}
    {g : Loc} (hg : (w.tree.lookup (dest v g)).isSome = true) :
    (w'.tree.lookup (dest v g)).isSome = true := by
  by_cases ht : CopyTouches (userDir u) (fileName f) (dest v g)
  · obtain he : dest v g = dest u f := ht.resolve_left tempLoc_not_dest
    rw [he] at hg ⊢
    rcases h.kept with hsame | ⟨⟨e, -, hnew⟩, -⟩
    · rwa [hsame]
    · simp [hnew]
  · rwa [h.frame.tree _ ht]

theorem Copying.ofTemp {trusted : Prop} {w w' : World} (h : Frame (tempLoc u f <+: ·) w w') :
    Copying trusted u f w w' :=
  ⟨h.mono fun _ => Or.inl, .inl (h.tree _ tempLoc_not_dest)⟩

def Shrinks (w w' : World) : Prop :=
  ∀ l, w'.tree.lookup l = w.tree.lookup l ∨ w'.tree.lookup l = none

theorem removeAll_shrinks (w : World) (path : Str) (io : Io) : Shrinks w (w.removeAll path io).2 := by
  intro l
  unfold World.removeAll
  split
  · rw [FileTree.lookup_prune]
    split <;> simp
  · rw [FileTree.lookup_keep]
    split <;> simp

section operations

variable {α : Type} {inv : Process C → Prop} {Q : α → Process C → Prop} {s : Process C}
  {path src : Str} {e : Entry}

abbrev Steady (ok : Process C → ProcessOp C → Io → Prop) (inv : Process C → Prop)
    (p : ProcessTask C α) (Q : α → Process C → Prop) (s : Process C) : Prop :=
  Program.Upholds (processSemantics C) ok inv p Q s

theorem steady_exists {k : Bool → ProcessTask C α} (hs : inv s)
    (hfound : s.world.pathExists path = true → Steady ok inv (k true) Q s)
    (hmissing : ∀ io, ok s (.font (.file (.exists path))) io →
      (io.ok = true → path ≠ [] → s.world.pathExists path = false) → Steady ok inv (k false) Q s) :
    Steady ok inv (font (checkPathExist path) >>= k) Q s := by
  refine ⟨hs, fun io hio => ?_⟩
  change Steady ok inv (k (decide (path ≠ []) && io.ok && s.world.pathExists path)) Q s
  cases hreply : decide (path ≠ []) && io.ok && s.world.pathExists path with
  | true =>
    obtain ⟨-, hw⟩ := (Bool.and_eq_true _ _).mp hreply
    exact hfound hw
  | false => exact hmissing io hio fun hok hpath => by simpa [hok, hpath] using hreply

theorem steady_openFile {k : Option Entry → ProcessTask C α} (hs : inv s)
    (hnone : Steady ok inv (k none) Q s)
    (hsome : ∀ e, s.world.entry path = some e → Steady ok inv (k (some e)) Q s) :
    Steady ok inv (perform (.openFile path) >>= k) Q s := by
  refine ⟨hs, fun io _ => ?_⟩
  change Steady ok inv (k (s.world.openFile path io.ok)) Q s
  cases hreply : s.world.openFile path io.ok with
  | none => exact hnone
  | some e => exact hsome e (World.entry_of_openFile hreply)

theorem steady_copyFile {k : Bool → ProcessTask C α} (hs : inv s)
    (h : ∀ b w, Frame (· = locate path) s.world w → (b = true → w.entry path = some e) →
      Steady ok inv (k b) Q (s.withWorld w)) :
    Steady ok inv (perform (.copyFile e path) >>= k) Q s :=
  ⟨hs, fun io _ => h _ _ (World.copyEntry_frame _ _ _ io) World.copyEntry_content⟩

theorem steady_renameFile {k : Bool → ProcessTask C α} (hs : inv s)
    (hsrc : s.world.entry src = some e)
    (hrefused : Steady ok inv (k false) Q s)
    (hmoved : ∀ w, Frame (FileOp.rename src path).touches s.world w → w.entry path = some e →
      Steady ok inv (k true) Q (s.withWorld w)) :
    Steady ok inv (perform (.renameFile src path) >>= k) Q s := by
  refine ⟨hs, fun io _ => ?_⟩
  change Steady ok inv (k (s.world.renameEntry src path io.ok).1) Q
    (s.withWorld (s.world.renameEntry src path io.ok).2)
  cases hreply : (s.world.renameEntry src path io.ok).1 with
  | true => exact hmoved _ (World.renameEntry_frame _ _ _ _) (World.renameEntry_content hsrc hreply)
  | false =>
    rw [World.renameEntry_refused hreply]
    exact hrefused

theorem steady_removeFile {k : Bool → ProcessTask C α} (hs : inv s)
    (h : ∀ b w, Frame (locate path <+: ·) s.world w → Shrinks s.world w →
      Steady ok inv (k b) Q (s.withWorld w)) :
    Steady ok inv (font (removeFile path) >>= k) Q s := by
  change Steady ok inv (font (checkPathExist path) >>= fun b =>
    font (if b = true then removeAll path else pure true) >>= k) Q s
  refine steady_exists hs (fun _ => ?_) fun _ _ _ => h true s.world (.refl _ _) fun _ => .inl rfl
  exact ⟨hs, fun io _ => h _ _ (World.removeAll_frame _ path io) (removeAll_shrinks _ path io)⟩

end operations

theorem copyFile_steady {trusted : Prop} (hf : Listed f) (s : Process C)
    (htrust : trusted → ∀ s io,
      ok s (.font (.file (.exists (userPath u ++ getFileName (joinPath f))))) io → io.ok = true) :
    Steady ok (fun s' => Copying trusted u f s.world s'.world)
      (copyFileForDataMigration (joinPath f) u)
      (fun code s' => code = .ok → (s'.world.tree.lookup (dest u f)).isSome = true) s := by
  have hdest := locate_dest hf u
  have htemp := locate_temp hf u
  have hpath : userPath u ++ getFileName (joinPath f) ≠ [] := by
    rw [userPath_eq]
    simp [dirPath]
  have hstart := Copying.refl trusted u f s.world
  refine steady_exists hstart (fun hfound => .pure hstart fun _ => ?_) fun io hio hmissing => ?_
  · rwa [World.pathExists, World.entry, hdest] at hfound
  have hfree : trusted → s.world.tree.lookup (dest u f) = none := fun ht => by
    have habsent := hmissing (htrust ht s io hio) hpath
    rwa [World.pathExists, World.entry, hdest, Option.isSome_eq_false_iff, Option.isNone_iff_eq_none]
      at habsent
  refine steady_openFile hstart (.pure hstart (by simp)) fun e hsource => ?_
  rw [World.entry, hf.locate_path] at hsource
  refine steady_copyFile hstart fun copied w₁ h₁ hcopied => ?_
  rw [htemp] at h₁
  have h₁' : Frame (tempLoc u f <+: ·) s.world w₁ := h₁.mono fun l hl => hl ▸ List.prefix_rfl
  cases copied with
  | false => exact .pure (.ofTemp h₁') (by simp)
  | true =>
    have failed : Steady ok (fun s' => Copying trusted u f s.world s'.world)
        (removeTemp (userPath u ++ tempFile ++ getFileName (joinPath f)) >>= fun _ =>
          pure DataMigrationResultCode.renameFile)
        (fun code s' => code = .ok → (s'.world.tree.lookup (dest u f)).isSome = true)
        (s.withWorld w₁) := by
      refine .bind (steady_removeFile (Copying.ofTemp h₁') fun _ w₂ h₂ _ => ?_)
      rw [htemp] at h₂
      have h₂' : Copying trusted u f s.world w₂ := Copying.ofTemp (h₁'.step h₂)
      exact .pure h₂' (.pure h₂' (by simp))
    refine steady_exists (Copying.ofTemp h₁') (fun _ => ?_) fun _ _ _ => failed
    refine steady_renameFile (Copying.ofTemp h₁') (hcopied rfl) failed fun w₂ h₂ hmoved => ?_
    rw [World.entry, hdest] at hmoved
    have h₂' : Frame (CopyTouches (userDir u) (fileName f)) w₁ w₂ :=
      h₂.mono fun l hl => by rwa [FileOp.touches, htemp, hdest] at hl
    refine .pure ⟨(h₁'.mono fun _ => Or.inl).step h₂', .inr ⟨⟨e, hsource, hmoved⟩, hfree⟩⟩ fun _ => ?_
    simp [hmoved]

theorem refreshEventData_steady {inv : World → Prop} {s : Process C} (hs : inv s.world)
    (request : Nat) (event : EventData) :
    Steady ok (fun s' => inv s'.world) (refreshEventData request event) (fun _ s' => s'.world = s.world)
      s := by
  obtain ⟨w, n, migrating, pending, flag, callback, thread, beats, delivered⟩ := s
  cases callback with
  | none => exact ⟨hs, fun _ _ => ⟨hs, rfl⟩⟩
  | some callback => exact ⟨hs, fun _ _ => ⟨hs, fun _ _ => ⟨hs, rfl⟩⟩⟩

theorem eventDataProgress_steady {inv : World → Prop} {s : Process C} (hs : inv s.world)
    (request i size idsize : Nat) :
    Steady ok (fun s' => inv s'.world) (eventDataProgress request i size idsize)
      (fun _ s' => s'.world = s.world) s :=
  ⟨hs, fun _ _ => refreshEventData_steady hs request _⟩

-- What a file system holds: names that a path can spell, and nothing below a file.
structure Orderly (w : World) : Prop where
  unique : FileTree.Unique w.tree
  plain : ∀ x ∈ w.tree, publicDir <+: x.1 → ∀ c ∈ x.1, Plain c
  leaf : ∀ x ∈ w.tree, publicDir <+: x.1 → x.2.isFile = true →
    ∀ y ∈ w.tree, x.1 <+: y.1 → y.1 = x.1

structure Progress (trusted : Loc → Prop) (users : List Int) (w : World) (files finished : List Loc)
    (w' : World) : Prop where
  shared : ∀ l, publicDir <+: l → w'.tree.lookup l = w.tree.lookup l ∨
    w'.tree.lookup l = none ∧ ∃ f ∈ finished, f <+: l
  settled : ∀ f ∈ finished, ∀ u ∈ users, (w'.tree.lookup (dest u f)).isSome = true
  origin : ∀ u l, userDir u <+: l → (∀ v, ∀ g ∈ files, ¬ tempLoc v g <+: l) →
    w'.tree.lookup l = w.tree.lookup l ∨
      ∃ g ∈ files, dest u g = l ∧ (w.tree.lookup g).isSome = true ∧
        w'.tree.lookup l = w.tree.lookup g ∧
        (trusted l → w.tree.lookup l = none ∧
          files.find? (fun h => decide (dest u h = l)) = some g)
  elsewhere : ∀ l, ¬ publicDir <+: l → (∀ u ∈ users, ¬ userDir u <+: l) →
    w'.tree.lookup l = w.tree.lookup l

section progress

variable {trusted : Loc → Prop} {users : List Int} {files finished rest : List Loc} {w w' w₀ : World}

theorem Progress.start (trusted : Loc → Prop) (users : List Int) (w : World) (files : List Loc) :
    Progress trusted users w files [] w where
  shared _ _ := .inl rfl
  settled f hf := by cases hf
  origin _ _ _ _ := .inl rfl
  elsewhere _ _ _ := rfl

theorem Progress.first_of_vacant (h : Progress trusted users w₀ files finished w)
    (hfiles : files = finished ++ f :: rest) (hu : u ∈ users) (hl : userDir u <+: dest u f)
    (htemp : ∀ v, ∀ g ∈ files, ¬ tempLoc v g <+: dest u f)
    (hfree : w.tree.lookup (dest u f) = none) :
    w₀.tree.lookup (dest u f) = none ∧
      files.find? (fun g => decide (dest u g = dest u f)) = some f := by
  constructor
  · rcases h.origin u _ hl htemp with hsame | ⟨g, -, -, hg, hcopy, -⟩
    · rw [← hsame, hfree]
    · rw [← hcopy, hfree] at hg
      cases hg
  · have hnone : finished.find? (fun g => decide (dest u g = dest u f)) = none := by
      refine List.find?_eq_none.mpr fun g hg he => ?_
      have hsome := h.settled g hg u hu
      rw [of_decide_eq_true he, hfree] at hsome
      cases hsome
    simp [hfiles, List.find?_append, hnone]

theorem Progress.copying (h : Progress trusted users w₀ files finished w)
    (hfiles : files = finished ++ f :: rest) (hlisted : ∀ g ∈ files, Listed g) (hu : u ∈ users)
    (hc : Copying (trusted (dest u f)) u f w w') : Progress trusted users w₀ files finished w' := by
  have hf : f ∈ files := by simp [hfiles]
  refine ⟨fun l hl => ?_, fun g hg v hv => ?_, fun v l hl htemp => ?_, fun l hpublic huser => ?_⟩
  · rw [hc.frame.tree l (shared_not_copied hl _)]
    exact h.shared l hl
  · exact hc.occupied (h.settled g hg v hv)
  · by_cases ht : CopyTouches (userDir u) (fileName f) l
    · obtain rfl : l = dest u f := ht.resolve_left (htemp u f hf)
      obtain rfl : v = u := userDir_leads (a := []) (by rw [List.append_nil]; exact hl)
      rcases hc.kept with hsame | ⟨⟨e, hsource, hnew⟩, hfree⟩
      · rw [hsame]
        exact h.origin v _ hl htemp
      · have hfirst : w₀.tree.lookup f = some e := by
          rcases h.shared f (hlisted f hf).shared with hsame | ⟨hgone, -⟩
          · rw [← hsame, hsource]
          · rw [hgone] at hsource
            cases hsource
        refine .inr ⟨f, hf, rfl, by simp [hfirst], by rw [hnew, hfirst], fun ht => ?_⟩
        exact h.first_of_vacant hfiles hu hl htemp (hfree ht)
    · rw [hc.frame.tree _ ht]
      exact h.origin v l hl htemp
  · have ht : ¬ CopyTouches (userDir u) (fileName f) l := by
      rintro (hp | rfl)
      · exact huser u hu ((List.prefix_append _ _).trans hp)
      · exact huser u hu (List.prefix_append _ _)
    rw [hc.frame.tree l ht]
    exact h.elsewhere l hpublic huser

theorem Progress.removing (h : Progress trusted users w₀ files finished w)
    (hfiles : files = finished ++ f :: rest) (hlisted : ∀ g ∈ files, Listed g)
    (hsettled : ∀ u ∈ users, (w.tree.lookup (dest u f)).isSome = true)
    (hframe : Frame (f <+: ·) w w') (hshrinks : Shrinks w w') :
    Progress trusted users w₀ files (finished ++ [f]) w' := by
  have hf : Listed f := hlisted f (by simp [hfiles])
  have apart : ∀ u l, userDir u <+: l → ¬ f <+: l := by
    intro u l hl hfl
    obtain ⟨b, hb⟩ := hf.shared.trans hfl
    rw [← hb, ← List.append_nil (userDir u)] at hl
    exact publicDir_not_userDir u hl
  refine ⟨fun l hl => ?_, fun g hg u hu => ?_, fun u l hl htemp => ?_, fun l hpublic huser => ?_⟩
  · have before : w'.tree.lookup l = w.tree.lookup l →
        w'.tree.lookup l = w₀.tree.lookup l ∨
          w'.tree.lookup l = none ∧ ∃ g ∈ finished ++ [f], g <+: l := by
      intro hsame
      rw [hsame]
      exact (h.shared l hl).imp_right fun ⟨hgone, g, hg, hgl⟩ =>
        ⟨hgone, g, List.mem_append_left _ hg, hgl⟩
    by_cases hfl : f <+: l
    · rcases hshrinks l with hsame | hgone
      · exact before hsame
      · exact .inr ⟨hgone, f, by simp, hfl⟩
    · exact before (hframe.tree l hfl)
  · rw [hframe.tree (dest u g) (apart u _ (List.prefix_append _ _))]
    rcases List.mem_append.mp hg with hg | hg
    · exact h.settled g hg u hu
    · obtain rfl := List.mem_singleton.mp hg
      exact hsettled u hu
  · rw [hframe.tree l (apart u l hl)]
    exact h.origin u l hl htemp
  · rw [hframe.tree l fun hfl => hpublic (hf.shared.trans hfl)]
    exact h.elsewhere l hpublic huser

section loops

variable {inv : World → Prop} {s : Process C}

theorem copyToUsers_steady (hlisted : ∀ g ∈ files, Listed g) (hfiles : files = finished ++ f :: rest)
    (htrust : ∀ path s io, trusted (locate path) → ok s (.font (.file (.exists path))) io → io.ok = true)
    {us ready : List Int} (hus : us ⊆ users) (hs : Progress trusted users w₀ files finished s.world)
    (hready : ∀ v ∈ ready, (s.world.tree.lookup (dest v f)).isSome = true) :
    Steady ok (fun s => Progress trusted users w₀ files finished s.world)
      (copyToUsers (joinPath f) us)
      (fun code s => code = .ok → ∀ v ∈ ready ++ us, (s.world.tree.lookup (dest v f)).isSome = true)
      s := by
  induction us generalizing s ready with
  | nil => exact .pure hs fun _ v hv => hready v (by simpa using hv)
  | cons u us ih =>
    obtain ⟨hu, hus⟩ := List.cons_subset.mp hus
    have hf : Listed f := hlisted f (by simp [hfiles])
    have htrust' : trusted (dest u f) → ∀ s io,
        ok s (.font (.file (.exists (userPath u ++ getFileName (joinPath f))))) io → io.ok = true :=
      fun ht s io => htrust _ s io ((locate_dest hf u).symm ▸ ht)
    have hcopy := copyFile_steady hf s htrust'
    refine .bind (hcopy.mono (fun s' hc => hs.copying hfiles hlisted hu hc) fun code s' hc hcode => ?_)
    have hs' := hs.copying hfiles hlisted hu hc
    by_cases hok : code = .ok
    · rw [if_neg (not_not_intro hok)]
      have hready' : ∀ v ∈ ready ++ [u], (s'.world.tree.lookup (dest v f)).isSome = true := by
        intro v hv
        rcases List.mem_append.mp hv with hv | hv
        · exact hc.occupied (hready v hv)
        · exact List.mem_singleton.mp hv ▸ hcode hok
      simpa only [List.append_assoc, List.singleton_append] using ih hus hs' hready'
    · rw [if_pos hok]
      exact .pure hs' fun h => absurd h hok

theorem startOneFileCopyTask_steady (hlisted : ∀ g ∈ files, Listed g)
    (hfiles : files = finished ++ f :: rest)
    (htrust : ∀ path s io, trusted (locate path) → ok s (.font (.file (.exists path))) io → io.ok = true)
    (hs : Progress trusted users w₀ files finished s.world) :
    Steady ok (fun s => ∃ finished, finished <+: files ∧ Progress trusted users w₀ files finished s.world)
      (startOneFileCopyTask users (joinPath f))
      (fun code s => code = .ok → Progress trusted users w₀ files (finished ++ [f]) s.world) s := by
  have hf : Listed f := hlisted f (by simp [hfiles])
  have hbefore : finished <+: files := ⟨f :: rest, hfiles.symm⟩
  have hafter : finished ++ [f] <+: files := ⟨rest, by simp [hfiles]⟩
  have hready : ∀ v ∈ ([] : List Int), (s.world.tree.lookup (dest v f)).isSome = true := by simp
  have hcopy := copyToUsers_steady hlisted hfiles htrust (List.Subset.refl users) hs hready
  refine .bind (hcopy.mono (fun s' hs' => ⟨finished, hbefore, hs'⟩) fun code s' hs' hsettled => ?_)
  by_cases hok : code = .ok
  · rw [if_neg (not_not_intro hok)]
    refine steady_removeFile ⟨finished, hbefore, hs'⟩ fun b w hframe hshrinks => ?_
    rw [hf.locate_path] at hframe
    have hs'' := hs'.removing hfiles hlisted (hsettled hok) hframe hshrinks
    cases b with
    | true => exact .pure ⟨_, hafter, hs''⟩ fun _ => hs''
    | false => exact .pure ⟨_, hafter, hs''⟩ fun _ => hs''
  · rw [if_pos hok]
    exact .pure ⟨finished, hbefore, hs'⟩ fun h => absurd h hok

theorem migrateFiles_steady (hlisted : ∀ g ∈ files, Listed g)
    (htrust : ∀ path s io, trusted (locate path) → ok s (.font (.file (.exists path))) io → io.ok = true)
    (request size i : Nat) (hfiles : files = finished ++ rest)
    (hs : Progress trusted users w₀ files finished s.world) :
    Steady ok (fun s => ∃ finished, finished <+: files ∧ Progress trusted users w₀ files finished s.world)
      (migrateFiles request users size i (rest.map joinPath))
      (fun code s => code = .ok → Progress trusted users w₀ files files s.world) s := by
  induction rest generalizing finished s i with
  | nil =>
    obtain rfl : files = finished := by simpa using hfiles
    exact .pure ⟨_, List.prefix_rfl, hs⟩ fun _ => hs
  | cons f rest ih =>
    have hbefore : finished <+: files := ⟨f :: rest, hfiles.symm⟩
    have copying : ∀ s' : Process C, s'.world = s.world →
        Steady ok (fun s => ∃ finished, finished <+: files ∧
            Progress trusted users w₀ files finished s.world)
          (startOneFileCopyTask users (joinPath f) >>= fun ret =>
            if ret ≠ .ok then pure ret
            else migrateFiles request users size (i + 1) (rest.map joinPath))
          (fun code s => code = .ok → Progress trusted users w₀ files files s.world) s' := by
      intro s' hworld
      rw [← hworld] at hs
      refine .bind ((startOneFileCopyTask_steady hlisted hfiles htrust hs).mono
        (fun _ h => h) fun code s'' hs'' hcode => ?_)
      by_cases hok : code = .ok
      · rw [if_neg (not_not_intro hok)]
        exact ih (i + 1) (by simp [hfiles]) (hcode hok)
      · rw [if_pos hok]
        exact .pure hs'' fun h => absurd h hok
    rw [List.map_cons, migrateFiles]
    split
    · have hprogress := @eventDataProgress_steady C ok
        (fun w => ∃ finished, finished <+: files ∧ Progress trusted users w₀ files finished w) s
        ⟨finished, hbefore, hs⟩
      exact .bind ((hprogress _ _ _ _).mono (fun _ h => h) fun _ s' _ hworld => copying s' hworld)
    · exact copying s rfl

end loops

end progress

section listing

variable {w : World} {root g : Loc}

theorem mem_files (h : FileTree.Unique w.tree) :
    f ∈ w.files root ↔ root <+: f ∧ ∃ e, w.tree.lookup f = some e ∧ e.isFile = true := by
  simp only [World.files, List.mem_filterMap]
  constructor
  · rintro ⟨⟨l, e⟩, hx, hf⟩
    cases e with
    | dir => simp at hf
    | _ =>
      obtain ⟨hroot, rfl⟩ : root <+: l ∧ l = f := by simpa using hf
      exact ⟨hroot, _, FileTree.lookup_of_mem h hx, rfl⟩
  · rintro ⟨hroot, e, he, hfile⟩
    refine ⟨(f, e), FileTree.mem_of_lookup he, ?_⟩
    cases e with
    | dir => cases hfile
    | _ => simpa using hroot

theorem Orderly.listed (h : Orderly w) (hf : f ∈ w.files publicDir) : Listed f := by
  obtain ⟨hshared, e, he, -⟩ := (mem_files h.unique).mp hf
  exact ⟨h.plain _ (FileTree.mem_of_lookup he) hshared, hshared⟩

theorem Orderly.leaves (h : Orderly w) (hf : f ∈ w.files publicDir) (hg : g ∈ w.files publicDir)
    (hfg : f <+: g) : g = f := by
  obtain ⟨hshared, e, he, hfile⟩ := (mem_files h.unique).mp hf
  obtain ⟨-, e', he', -⟩ := (mem_files h.unique).mp hg
  exact h.leaf _ (FileTree.mem_of_lookup he) hshared hfile _ (FileTree.mem_of_lookup he') hfg

end listing

theorem startDataMigration_steady {trusted : Loc → Prop} {s : Process C} (hw : Orderly s.world)
    (htrust : ∀ path s io, trusted (locate path) → ok s (.font (.file (.exists path))) io → io.ok = true)
    (request : Nat) (users : List Int) :
    Steady ok (fun s' => ∃ finished, finished <+: s.world.files publicDir ∧
        Progress trusted users s.world (s.world.files publicDir) finished s'.world)
      (startDataMigration request users)
      (fun code s' => code = .ok →
        Progress trusted users s.world (s.world.files publicDir) (s.world.files publicDir) s'.world)
      s := by
  have hstart := Progress.start trusted users s.world (s.world.files publicDir)
  refine ⟨⟨[], List.nil_prefix, hstart⟩, fun io _ => ?_⟩
  have hroot : locate installPathApp = publicDir := by
    rw [installPathApp_eq, locate_dirPath (by decide)]
  change Steady ok _ (migrateFiles request users
    ((s.world.files (locate installPathApp)).map joinPath).length 0
    ((s.world.files (locate installPathApp)).map joinPath)) _ s
  rw [hroot]
  exact migrateFiles_steady (fun g hg => hw.listed hg) htrust
    request _ 0 rfl hstart

end Migration
