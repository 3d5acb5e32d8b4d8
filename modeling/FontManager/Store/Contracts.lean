import FontManager.Store.Effects

open FontDefine FontManagerUtils FontLocation Interaction KeyedList

abbrev Ensures {α : Type} (ok : World → Op → Io → Prop) (p : FontTask α) (Q : α → World → Prop) (w : World) :
    Prop := Program.wp semantics ok p Q w

-- The same condition on the answer to every operation.
abbrev each (I : Io → Prop) : World → Op → Io → Prop := fun _ _ => I

def CopyTouches (cs : Loc) (name : Str) (loc : Loc) : Prop :=
  cs ++ [tempDir, name] <+: loc ∨ loc = cs ++ [name]

theorem locate_tempFile {cs : Loc} (hcs : ∀ c ∈ cs, Plain c) {name : Str} (hn : Plain name) :
    locate (dirPath cs ++ tempFile ++ name) = cs ++ [tempDir, name] := by
  have htemp : tempFile = tempDir ++ ['/'] := by decide
  rw [htemp, ← List.append_assoc, dirPath_append_dir, dirPath_append_name, locate_joinPath]
  · simp
  · intro c hc
    simp only [List.mem_append, List.mem_singleton] at hc
    rcases hc with (hc | rfl) | rfl
    · exact hcs c hc
    · decide
    · exact hn

theorem locate_name {cs : Loc} (hcs : ∀ c ∈ cs, Plain c) {name : Str} (hn : Plain name) :
    locate (dirPath cs ++ name) = cs ++ [name] := by
  rw [dirPath_append_name, locate_joinPath]
  intro c hc
  rcases List.mem_append.mp hc with hc | hc
  · exact hcs c hc
  · exact List.mem_singleton.mp hc ▸ hn

namespace Ensures

variable {ok : World → Op → Io → Prop} {α β : Type} {w : World} {u : Int}

theorem pure {Q : α → World → Prop} {a : α} (h : Q a w) : Ensures ok (Pure.pure a) Q w := h

theorem bind {p : FontTask α} {f : α → FontTask β} {Q : β → World → Prop}
    (h : Ensures ok p (fun a => Ensures ok (f a) Q) w) : Ensures ok (p >>= f) Q w :=
  (Program.wp_bind semantics ok p f Q w).mpr h

theorem mono {Q R : α → World → Prop} {p : FontTask α} (h : Ensures ok p Q w)
    (hQR : ∀ a w, Q a w → R a w) : Ensures ok p R w := Program.wp_mono semantics ok hQR h

section files

theorem checkPathExist {path : Str} {Q : Bool → World → Prop} (h : ∀ b, Q b w) :
    Ensures ok (checkPathExist path) Q w := fun _ _ => h _

theorem weaklyCanonical {path : Str} {Q : Option Str → World → Prop} (hnone : Q none w)
    (hsome : Q (some (lexicallyNormal path)) w) : Ensures ok (weaklyCanonical path) Q w := by
  intro io _
  show Q (if io.ok then some (lexicallyNormal path) else none) w
  split
  · exact hsome
  · exact hnone

theorem createDirectory {path : Str} {Q : Bool → World → Prop}
    (h : ∀ b w', Frame (· = locate path) w w' → Q b w') : Ensures ok (createDirectory path) Q w :=
  fun io _ => h _ _ (World.execFile_frame w io (.createDirectory path))

theorem createDirWithPermission {path : Str} {Q : Bool → World → Prop}
    (h : ∀ b w', Frame (· = locate path) w w' → Q b w') :
    Ensures ok (createDirWithPermission path) Q w := by
  unfold FontManagerUtils.createDirWithPermission
  by_cases hp : path = [] ∨ hasDotComponent path = true
  · rw [if_pos hp]
    exact pure (h _ _ (.refl _ w))
  · rw [if_neg hp]
    exact createDirectory h

theorem checkOrCreateDir {path : Str} {Q : Bool → World → Prop}
    (h : ∀ b w', Frame (· = locate path) w w' → Q b w') :
    Ensures ok (checkOrCreateDir path) Q w := by
  refine bind (checkPathExist fun b => ?_)
  cases b with
  | true => exact pure (h _ _ (.refl _ w))
  | false => exact createDirWithPermission h

theorem checkAndInitScopeFontPath {path : Str} {Q : Bool → World → Prop}
    (h : ∀ b w', Frame (fun l => l = locate path ∨ l = locate (path ++ tempFile)) w w' → Q b w') :
    Ensures ok (checkAndInitScopeFontPath path) Q w := by
  refine bind (checkOrCreateDir fun b w₁ h₁ => ?_)
  cases b with
  | true => exact checkOrCreateDir fun b w₂ h₂ => h _ _ (h₁.trans h₂)
  | false => exact pure (h _ _ (h₁.mono fun _ => Or.inl))

theorem removeAll {path : Str} {Q : Bool → World → Prop}
    (h : ∀ b w', Frame (locate path <+: ·) w w' → Q b w') : Ensures ok (removeAll path) Q w :=
  fun io _ => h _ _ (World.execFile_frame w io (.removeAll path))

theorem removeFile {path : Str} {Q : Bool → World → Prop}
    (h : ∀ b w', Frame (locate path <+: ·) w w' → Q b w') : Ensures ok (removeFile path) Q w := by
  refine bind (checkPathExist fun b => ?_)
  cases b with
  | true => exact removeAll h
  | false => exact pure (h _ _ (.refl _ w))

theorem deleteDir {path : Str} {Q : Unit → World → Prop}
    (h : ∀ w', Frame (locate path <+: ·) w w' → Q () w') : Ensures ok (deleteDir path) Q w := by
  refine bind (checkPathExist fun b => ?_)
  cases b with
  | true => exact bind (removeAll fun _ w' hf => pure (h w' hf))
  | false => exact pure (h _ (.refl _ w))

end files

section installation

theorem copy_content {path : Str} {fd : Fd} {io : Io} (h : (w.copy fd path io).1 = true) :
    (w.copy fd path io).2.entry path = some (.bytes fd.content) := by
  revert h
  unfold World.copy
  split
  · simp
  · split
    · simp
    · intro h
      have hsent := of_decide_eq_true h
      simp [World.entry, World.put, List.take_of_length_le hsent]

theorem rename_content {src dest : Str} {done : Bool} {content : List UInt8}
    (hsrc : w.entry src = some (.bytes content)) (h : (w.rename src dest done).1 = true) :
    (w.rename src dest done).2.entry dest = some (.bytes content) := by
  revert h
  unfold World.rename
  rw [hsrc]
  by_cases hc : (done && w.canHold (locate dest)) = true
  · simp [hc, World.entry]
  · simp [hc]

theorem copyFile {path : Str} {fd : Fd} {Q : Bool → World → Prop}
    (h : ∀ b w', Frame (· = locate path) w w' →
      (b = true → w'.entry path = some (.bytes fd.content)) → Q b w') :
    Ensures ok (copyFile fd path) Q w :=
  fun io _ => h _ _ (World.execFile_frame w io (.copy fd path)) copy_content

theorem rename {src dest : Str} {content : List UInt8}
    (hsrc : w.entry src = some (.bytes content)) {Q : Bool → World → Prop}
    (h : ∀ b w', Frame (FileOp.rename src dest).touches w w' →
      (b = true → w'.entry dest = some (.bytes content)) → Q b w') :
    Ensures ok (rename src dest) Q w :=
  fun io _ => h _ _ (World.execFile_frame w io (.rename src dest)) (rename_content hsrc)

theorem renameFile {src dest : Str} {content : List UInt8}
    (hsrc : w.entry src = some (.bytes content)) {Q : Bool → World → Prop}
    (h : ∀ b w', Frame (FileOp.rename src dest).touches w w' →
      (b = true → w'.entry dest = some (.bytes content)) → Q b w') :
    Ensures ok (renameFile src dest) Q w := by
  refine bind (checkPathExist fun b => ?_)
  cases b with
  | true => exact rename hsrc h
  | false => exact pure (h _ _ (.refl _ w) (by simp))

theorem copyFileForInstall {cs : Loc} (hcs : ∀ c ∈ cs, Plain c) {env : Env} {fileName : Str}
    {fd : Fd} (hn : Plain (FontManager.taggedName env fileName)) {Q : Str → World → Prop}
    (hfail : ∀ w', Frame (CopyTouches cs (FontManager.taggedName env fileName)) w w' → Q [] w')
    (hdone : ∀ w', Frame (CopyTouches cs (FontManager.taggedName env fileName)) w w' →
      w'.tree.lookup (cs ++ [FontManager.taggedName env fileName]) = some (.bytes fd.content) →
      Q (dirPath cs ++ FontManager.taggedName env fileName) w') :
    Ensures ok (FontManager.copyFileForInstall env (dirPath cs) fileName fd) Q w := by
  have htemp := locate_tempFile hcs hn
  have hdest := locate_name hcs hn
  refine bind (copyFile fun b w₁ h₁ hcontent => ?_)
  rw [htemp] at h₁
  have h₁' := h₁.mono (T := CopyTouches cs (FontManager.taggedName env fileName)) fun l hl =>
    Or.inl (hl ▸ List.prefix_rfl)
  cases b with
  | false => exact pure (hfail _ h₁')
  | true =>
    refine bind (renameFile (hcontent rfl) fun b w₂ h₂ hmoved => ?_)
    have h₂' := h₁'.step (h₂.mono (T := CopyTouches cs (FontManager.taggedName env fileName))
      fun l hl => by rwa [FileOp.touches, htemp, hdest] at hl)
    cases b with
    | true =>
      have hmoved' := hmoved rfl
      rw [World.entry, hdest] at hmoved'
      exact pure (hdone _ h₂' hmoved')
    | false =>
      refine bind (removeFile fun _ w₃ h₃ => pure (hfail _ (h₂'.step (h₃.mono fun l hl => ?_))))
      rw [htemp] at hl
      exact Or.inl hl

end installation

end Ensures
