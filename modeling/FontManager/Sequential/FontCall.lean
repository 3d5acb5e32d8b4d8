import FontManager.Interaction.Sequence
import FontManager.Store.Removals

open FontDefine FontManagerUtils FontLocation Interaction KeyedList

inductive FontCall where
  | installFont (env : Env) (fd : Fd)
  | uninstallFont (fontFullName : Str)
  | installScopeFont (env : Env) (fd : Fd) (scope : Int) (srcPath bundleName : Str) (tokenId : Int)
  | uninstallScopeFont (srcPath bundleName : Str) (tokenId : Int)
  | cleanupAppScopeFonts (scope tokenId : Int)
  | cleanupScopeFontsByUser
  | cleanupAppScopeFontsByUser
deriving DecidableEq

namespace FontCall

def info (u : Int) (fd : Fd) (scope : Int) (srcPath bundleName : Str) (tokenId : Int) :
    ScopeFontInstallInfo where
  fd := fd
  scope := scope
  srcPath := srcPath
  bundleName := bundleName
  appIdentifier := makeAppIdentifier scope tokenId
  userId := u

def program (u : Int) : FontCall → FontTask FontErrorCode
  | installFont env fd => FontManager.installFont env fd u
  | uninstallFont name => FontManager.uninstallFont name u
  | installScopeFont env fd scope srcPath bundleName tokenId =>
    FontManager.installScopeFont env (info u fd scope srcPath bundleName tokenId)
  | uninstallScopeFont srcPath bundleName tokenId =>
    FontManager.uninstallScopeFont srcPath bundleName tokenId u
  | cleanupAppScopeFonts scope tokenId =>
    FontManager.cleanupAppScopeFonts (makeAppIdentifier scope tokenId) u
  | cleanupScopeFontsByUser => FontManager.cleanupScopeFontsByUser u
  | cleanupAppScopeFontsByUser => FontManager.cleanupAppScopeFontsByUser u

def service (u : Int) : Service sig FontCall FontErrorCode World Io := ⟨semantics, program u⟩

def source : FontCall → Option Fd
  | installFont _ fd => some fd
  | installScopeFont _ fd _ _ _ _ => some fd
  | _ => none

def target : FontCall → Option Str
  | installFont env fd =>
    some (installPathApp ++ FontManager.taggedName env (getFileName (getFilePathByFd fd)))
  | installScopeFont env fd scope _ _ tokenId =>
    some (installPathApp ++ makeAppIdentifier scope tokenId ++ ['/'] ++
      FontManager.taggedName env (getFileName (getFilePathByFd fd)))
  | _ => none

def url : FontCall → Option Str
  | installScopeFont _ _ _ srcPath _ _ => some srcPath
  | _ => none

def Effect (ok : World → Op → Io → Prop) (u : Int) (v : View) (w : World) (code : FontErrorCode) (v' : View)
    (w' : World) : FontCall → Prop
  | installFont env fd =>
    InstallEffect ok u (userSlot env fd) (UserFresh env fd)
      (Record.user (userSlot env fd).sandbox (getFullNamesByFd fd)) fd v w code v' w'
  | installScopeFont env fd scope srcPath bundleName tokenId =>
    InstallEffect ok u (appSlot env fd (makeAppIdentifier scope tokenId))
      (ScopeFresh ok (info u fd scope srcPath bundleName tokenId))
      (Record.ofInfo (installedInfo env (info u fd scope srcPath bundleName tokenId))) fd v w code
      v' w'
  | _ => v.Shrinks v'

variable {ok : World → Op → Io → Prop} {u : Int} {v v' : View} {w w' : World} {code : FontErrorCode}

theorem contract (hp : v.Placed) (hv : v.Shows u w) (c : FontCall) :
    Ensures ok (c.program u) (fun code w' => ∃ v', v'.Shows u w' ∧ c.Effect ok u v w code v' w') w := by
  have swap : ∀ (_ : FontErrorCode) (w' : World), Kept u v w' → ∃ v', v'.Shows u w' ∧ v.Shrinks v' :=
    fun _ _ ⟨v', hs, hv'⟩ => ⟨v', hv', hs⟩
  cases c with
  | installFont env fd => exact Ensures.installFont hv env fd
  | uninstallFont name => exact (Ensures.uninstallFont hp hv name).mono swap
  | installScopeFont env fd scope srcPath bundleName tokenId =>
    exact @Ensures.installScopeFont ok w v (info u fd scope srcPath bundleName tokenId) hv env
      ⟨tokenId, rfl⟩
  | uninstallScopeFont srcPath bundleName tokenId =>
    exact (Ensures.uninstallScopeFont hp hv srcPath bundleName tokenId).mono swap
  | cleanupAppScopeFonts scope tokenId =>
    exact (Ensures.cleanupAppScopeFonts hp hv scope tokenId).mono swap
  | cleanupScopeFontsByUser => exact (Ensures.cleanupScopeFontsByUser hp hv).mono swap
  | cleanupAppScopeFontsByUser => exact (Ensures.cleanupAppScopeFontsByUser hp hv).mono swap

theorem user_placed (env : Env) (fd : Fd) (names : List Str) :
    (Record.user (userSlot env fd).sandbox names).Placed :=
  ⟨userSlot env fd, userSlot_valid env fd,
    Text.cStr_of_nulFree (sandbox_nulFree (userSlot_valid env fd)), Or.inl ⟨rfl, rfl, rfl⟩⟩

theorem app_identifier (env : Env) (u : Int) (fd : Fd) (scope : Int) (srcPath bundleName : Str)
    (t : Int) :
    (Record.ofInfo (installedInfo env (info u fd scope srcPath bundleName t))).appIdentifier =
      some (makeAppIdentifier scope t) :=
  Record.optional_of_nulFree (makeAppIdentifier_plain scope t).nonempty
    (makeAppIdentifier_nulFree scope t)

theorem app_placed (env : Env) {u : Int} {fd : Fd} {scope : Int} {srcPath bundleName : Str} {t : Int}
    (hscope : scope = fontScopeApp ∨ scope = fontScopeSession) :
    (Record.ofInfo (installedInfo env (info u fd scope srcPath bundleName t))).Placed := by
  have hvalid := appSlot_valid env fd scope t
  have hnonneg : scope ≥ 0 := by
    rcases hscope with rfl | rfl <;> decide
  refine ⟨_, hvalid, Text.cStr_of_nulFree (sandbox_nulFree hvalid),
    Or.inr ⟨scope, t, hscope, if_pos hnonneg, app_identifier env u fd scope srcPath bundleName t, rfl⟩⟩

theorem placed_append {rs : List Record} {r : Record} (hp : v.Placed) (hs : v.Shrinks (some rs))
    (hr : r.Placed) : View.Placed (some (rs ++ [r])) := by
  intro q hq
  rcases List.mem_append.mp hq with hq | hq
  · exact hp.shrinks hs q hq
  · exact List.mem_singleton.mp hq ▸ hr

def Adds (ok : World → Op → Io → Prop) (u : Int) (c : FontCall) (rs : List Record) (r : Record) :
    Prop :=
  match c with
  | installFont env fd =>
    UserFresh env fd rs ∧ r = Record.user (userSlot env fd).sandbox (getFullNamesByFd fd)
  | installScopeFont env fd scope srcPath bundleName tokenId =>
    ScopeFresh ok (info u fd scope srcPath bundleName tokenId) rs ∧
      r = Record.ofInfo (installedInfo env (info u fd scope srcPath bundleName tokenId))
  | _ => False

theorem Effect.shrinks_or_adds {c : FontCall} (h : c.Effect ok u v w code v' w') :
    v.Shrinks v' ∨ ∃ rs r, v.Shrinks (some rs) ∧ c.Adds ok u rs r ∧ v' = some (rs ++ [r]) := by
  cases c with
  | installFont env fd =>
    cases h with
    | failed _ hs => exact Or.inl hs
    | skipped _ hs => exact Or.inl hs
    | lost => exact Or.inl (View.shrinks_none v)
    | stored hs _ hf => exact Or.inr ⟨_, _, hs, ⟨hf, rfl⟩, rfl⟩
  | installScopeFont env fd scope srcPath bundleName t =>
    cases h with
    | failed _ hs => exact Or.inl hs
    | skipped _ hs => exact Or.inl hs
    | lost => exact Or.inl (View.shrinks_none v)
    | stored hs _ hf => exact Or.inr ⟨_, _, hs, ⟨hf, rfl⟩, rfl⟩
  | uninstallFont name => exact Or.inl h
  | uninstallScopeFont srcPath bundleName t => exact Or.inl h
  | cleanupAppScopeFonts scope t => exact Or.inl h
  | cleanupScopeFontsByUser => exact Or.inl h
  | cleanupAppScopeFontsByUser => exact Or.inl h

theorem Adds.placed {c : FontCall} {rs : List Record} {r : Record} (h : c.Adds ok u rs r) :
    r.Placed := by
  cases c with
  | installFont env fd => exact h.2 ▸ user_placed env fd _
  | installScopeFont env fd scope srcPath bundleName t => exact h.2 ▸ app_placed env h.1.1
  | _ => exact h.elim

theorem Effect.placed {c : FontCall} (hp : v.Placed) (h : c.Effect ok u v w code v' w') :
    v'.Placed := by
  rcases h.shrinks_or_adds with hs | ⟨rs, r, hs, hr, rfl⟩
  · exact hp.shrinks hs
  · exact placed_append hp hs hr.placed

theorem Effect.apart {κ : Type} [DecidableEq κ] {keys : Record → List κ} {c : FontCall}
    (h : c.Effect ok u v w code v' w') (hv : Apart keys v.records)
    (hfresh : ∀ rs r, c.Adds ok u rs r → ∀ q ∈ rs, ∀ k ∈ keys q, k ∉ keys r) :
    Apart keys v'.records := by
  rcases h.shrinks_or_adds with hs | ⟨rs, r, hs, hr, rfl⟩
  · exact hv.sublist hs.records_sublist
  · exact apart_append_singleton.mpr ⟨hv.sublist hs.records_sublist, hfresh rs r hr⟩

theorem complete_effect (hp : v.Placed) (hv : v.Shows u w) (c : FontCall) {ios : List Io}
    (hios : Program.Along semantics ok (c.program u) w ios) :
    ∃ v', v'.Shows u ((service u).complete w (c, ios)).2 ∧
      c.Effect ok u v w ((service u).complete w (c, ios)).1 v' ((service u).complete w (c, ios)).2 :=
  (contract hp hv c).run hios

def unchecked (_ : World) (_ : Op) (_ : Io) : Prop := True

theorem complete_unchecked (hp : v.Placed) (hv : v.Shows u w) (c : FontCall) (ios : List Io) :
    ∃ v', v'.Shows u ((service u).complete w (c, ios)).2 ∧
      c.Effect unchecked u v w ((service u).complete w (c, ios)).1 v'
        ((service u).complete w (c, ios)).2 :=
  complete_effect hp hv c (.of_forall (fun _ _ _ _ => trivial) _ _)

end FontCall
