import FontManager.Sequential.FontCall

open FontDefine FontManagerUtils FontLocation FontConfig Interaction KeyedList Text CJson

namespace StoreInvariant

def NamesNulFree (c : FontCall) : Prop := ∀ fd ∈ c.source, ∀ n ∈ getFullNamesByFd fd, NulFree n

def Unclaimed (u : Int) (w : World) (c : FontCall) : Prop :=
  ∀ path ∈ c.target, ∀ fd ∈ c.source, ∀ item ∈ listed (w.config u), atPath path item = true →
    (∃ n ∈ getFullNamesByFd fd, named n item = true) ∨ ∃ s ∈ c.url, atUrl s item = true

instance (c : FontCall) : Decidable (NamesNulFree c) :=
  inferInstanceAs (Decidable (∀ fd ∈ c.source, ∀ n ∈ getFullNamesByFd fd, NulFree n))

instance (u : Int) (w : World) (c : FontCall) : Decidable (Unclaimed u w c) :=
  inferInstanceAs (Decidable (∀ path ∈ c.target, ∀ fd ∈ c.source, ∀ item ∈ listed (w.config u),
    atPath path item = true →
      (∃ n ∈ getFullNamesByFd fd, named n item = true) ∨ ∃ s ∈ c.url, atUrl s item = true))

theorem target_user (env : Env) (fd : Fd) :
    (FontCall.installFont env fd).target = some (userSlot env fd).sandbox := by
  rw [userSlot, sandbox_none, FontCall.target]

theorem target_app (env : Env) (fd : Fd) (scope : Int) (srcPath bundleName : Str) (t : Int) :
    (FontCall.installScopeFont env fd scope srcPath bundleName t).target =
      some (appSlot env fd (makeAppIdentifier scope t)).sandbox := by
  rw [appSlot, sandbox_some, FontCall.target]

variable {ok : World → Op → Io → Prop} {u : Int} {v v' : View} {w w' : World} {code : FontErrorCode}

theorem map_cStr {names : List Str} (h : ∀ n ∈ names, NulFree n) : names.map cStr = names :=
  (List.map_congr_left fun n hn => cStr_of_nulFree (h n hn)).trans (List.map_id _)

theorem user_fontPath (env : Env) (fd : Fd) (names : List Str) :
    (Record.user (userSlot env fd).sandbox names).fontPath = (userSlot env fd).sandbox :=
  cStr_of_nulFree (sandbox_nulFree (userSlot_valid env fd))

theorem app_fontPath (env : Env) (u : Int) (fd : Fd) (scope : Int) (srcPath bundleName : Str)
    (t : Int) :
    (Record.ofInfo (installedInfo env (FontCall.info u fd scope srcPath bundleName t))).fontPath =
      (appSlot env fd (makeAppIdentifier scope t)).sandbox :=
  cStr_of_nulFree (sandbox_nulFree (appSlot_valid env fd scope t))

theorem user_fullNames {path : Str} {names : List Str} (h : ∀ n ∈ names, NulFree n) :
    (Record.user path names).fullNames = names := map_cStr h

theorem app_fullNames {env : Env} {info : ScopeFontInstallInfo}
    (h : ∀ n ∈ getFullNamesByFd info.fd, NulFree n) :
    (Record.ofInfo (installedInfo env info)).fullNames = getFullNamesByFd info.fd := map_cStr h

theorem claimed {path : Str} {c : FontCall} {fd : Fd} (hun : Unclaimed u w c) (hv : v.Shows u w)
    (ht : path ∈ c.target) (hfd : fd ∈ c.source) {r : Record} (hr : r ∈ v.records)
    (hpath : r.fontPath = path) :
    (∃ n ∈ getFullNamesByFd fd, n ∈ r.fullNames) ∨ ∃ s ∈ c.url, s ∈ r.urls := by
  have hitem : r.item ∈ listed (w.config u) := listed_shows hv ▸ List.mem_map_of_mem hr
  have hat : atPath path r.item = true := by
    rw [Record.atPath_item, has_iff]
    simp [Record.paths, hpath]
  simpa only [Record.named_item, Record.atUrl_item, has_iff] using hun path ht fd hfd r.item hitem hat

theorem sound_append {rs : List Record} {r : Record} {fd : Fd} (hs : Sound v.records)
    (hshrinks : v.Shrinks (some rs)) (hr : r.Placed) (hnames : r.fullNames = getFullNamesByFd fd)
    (hn : Unnamed (getFullNamesByFd fd) rs)
    (hpaths : ∀ q ∈ rs, q.fontPath ≠ r.fontPath) : Sound (View.records (some (rs ++ [r]))) :=
  (hs.sublist hshrinks.records_sublist).append hr (hnames ▸ hn) hpaths

theorem sound_shrinks (hs : Sound v.records) (h : v.Shrinks v') : Sound v'.records :=
  hs.sublist h.records_sublist

theorem unclaimed_fresh {c : FontCall} {fd : Fd} {s : Slot} {rs : List Record}
    (hun : Unclaimed u w c) (hv : v.Shows u w) (ht : c.target = some s.sandbox)
    (hfd : c.source = some fd) (hshrinks : v.Shrinks (some rs))
    (hn : Unnamed (getFullNamesByFd fd) rs) (hurls : ∀ q ∈ rs, ∀ k ∈ c.url, k ∉ q.urls) :
    ∀ q ∈ rs, q.fontPath ≠ s.sandbox := by
  intro q hq hpath
  have hmem : q ∈ v.records := hshrinks.records_sublist.subset hq
  rcases claimed hun hv ht hfd hmem hpath with ⟨n, hnm, hnq⟩ | ⟨k, hk, hkq⟩
  · exact hn n hnm q hq hnq
  · exact hurls q hq k hk hkq

theorem sound_effect {c : FontCall} (hatt : Attentive ok) (hnul : NamesNulFree c)
    (hun : c.url.isSome = true → Unclaimed u w c) (hv : v.Shows u w) (hs : Sound v.records)
    (h : c.Effect ok u v w code v' w') : Sound v'.records := by
  cases c with
  | installFont env fd =>
    cases h with
    | failed _ hsh => exact sound_shrinks hs hsh
    | skipped _ hsh => exact sound_shrinks hs hsh
    | lost => exact sound_shrinks hs (View.shrinks_none v)
    | stored hsh hn hfresh =>
      refine sound_append hs hsh (FontCall.user_placed env fd _) (user_fullNames (hnul fd rfl)) (hn hatt hs) ?_
      rw [user_fontPath]
      exact hfresh
  | installScopeFont env fd scope srcPath bundleName t =>
    cases h with
    | failed _ hsh => exact sound_shrinks hs hsh
    | skipped _ hsh => exact sound_shrinks hs hsh
    | lost => exact sound_shrinks hs (View.shrinks_none v)
    | stored hsh hn hfresh =>
      refine sound_append hs hsh (FontCall.app_placed env hfresh.1)
        (app_fullNames (hnul fd rfl)) (hn hatt hs) ?_
      rw [app_fontPath]
      refine unclaimed_fresh (hun rfl) hv (target_app env fd scope srcPath bundleName t) rfl hsh
        (hn hatt hs) fun q hq k hk => ?_
      obtain rfl : srcPath = k := Option.some.inj hk
      exact hfresh.2 hatt q hq
  | uninstallFont name => exact sound_shrinks hs h
  | uninstallScopeFont srcPath bundleName t => exact sound_shrinks hs h
  | cleanupAppScopeFonts scope t => exact sound_shrinks hs h
  | cleanupScopeFontsByUser => exact sound_shrinks hs h
  | cleanupAppScopeFontsByUser => exact sound_shrinks hs h

theorem shows_empty (h : w.config u = some emptyConfig) : View.Shows u (some []) w := h

end StoreInvariant
