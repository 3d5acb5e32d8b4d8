import FontManager.Sequential.StoreInvariant

open FontDefine FontManagerUtils FontLocation FontConfig StoreInvariant Interaction KeyedList CJson
  Text

namespace KeyUniqueness

def urlOf (item : Json) : List Str := (stringItem item fontSrcPath).toList.filter (· ≠ [])

def KeysUnique (u : Int) (w : World) : Prop :=
  Apart fullNamesOf (listed (w.config u)) ∧ Apart urlOf (listed (w.config u))

instance (u : Int) (w : World) : Decidable (KeysUnique u w) := inferInstanceAs (Decidable (_ ∧ _))

structure Tidy (u : Int) (w : World) (e : FontCall × List Io) : Prop where
  names : NamesNulFree e.1
  urls : ∀ s ∈ e.1.url, NulFree s
  unclaimed : e.1.url.isSome = true → Unclaimed u w e.1
  reads : Program.Along semantics (fun w o io => attentive w o io = true) (e.1.program u) w e.2

variable {ok : World → Op → Io → Prop} {u : Int} {v v' : View} {w w' : World} {code : FontErrorCode}

theorem app_urls {env : Env} {info : ScopeFontInstallInfo} (h : NulFree info.srcPath) :
    ∀ k ∈ (Record.ofInfo (installedInfo env info)).urls, k = info.srcPath := by
  intro k hk
  have hopt : (Record.ofInfo (installedInfo env info)).srcPath = Record.optional info.srcPath := rfl
  rw [Record.urls, hopt, Record.optional] at hk
  split at hk
  · simpa [cStr_of_nulFree h] using hk
  · simp at hk

theorem urls_apart_effect {c : FontCall} (hatt : Attentive ok) (hurl : ∀ s ∈ c.url, NulFree s)
    (hv : Apart Record.urls v.records) (h : c.Effect ok u v w code v' w') :
    Apart Record.urls v'.records := by
  refine h.apart hv fun rs r hr q hq k hkq hk => ?_
  cases c with
  | installFont env fd => simp [hr.2, Record.urls, Record.user] at hk
  | installScopeFont env fd scope srcPath bundleName t =>
    rw [hr.2] at hk
    rw [app_urls (hurl srcPath rfl) k hk] at hkq
    exact hr.1.2 hatt q hq hkq
  | _ => exact hr.elim

def Keyed (u : Int) (w : World) : Prop :=
  ∃ v : View, v.Shows u w ∧ Sound v.records ∧ Apart Record.urls v.records

theorem attentive_reads : Attentive fun w o io => attentive w o io = true := fun _ _ _ h => h

theorem keyed_step {e : FontCall × List Io} (hw : Keyed u w) (he : Tidy u w e) :
    Keyed u ((FontCall.service u).complete w e).2 := by
  obtain ⟨v, hv, hs, hurls⟩ := hw
  obtain ⟨v', hv', heffect⟩ :=
    FontCall.complete_effect hs.placed hv e.1 he.reads
  exact ⟨v', hv', sound_effect attentive_reads he.names he.unclaimed hv hs heffect,
    urls_apart_effect attentive_reads he.urls hurls heffect⟩

theorem keysUnique_of_keyed (h : Keyed u w) : KeysUnique u w := by
  obtain ⟨v, hv, hs, hurls⟩ := h
  rw [KeysUnique, listed_shows hv, apart_map, apart_map]
  refine ⟨hs.names.mono fun r _ n hn => ?_, hurls.mono fun r _ k hk => ?_⟩
  · rwa [r.fullNamesOf_item] at hn
  · rw [urlOf, r.stringItem_fontSrcPath] at hk
    exact (List.mem_filter.mp hk).1

theorem keys_unique {es : List (FontCall × List Io)} (h : w.config u = some emptyConfig)
    (hes : (FontCall.service u).Met (Tidy u) w es) : KeysUnique u ((FontCall.service u).after w es) :=
  keysUnique_of_keyed (hes.invariant (fun _ _ => keyed_step)
    ⟨some [], shows_empty h, .nil, apart_nil⟩)

section collision

def sessionInstall (second : Nat) (fullName srcPath : Str) : FontCall × List Io :=
  (.installScopeFont (Sample.noon second) (Sample.sourceFont fullName 1) fontScopeSession srcPath
    "bundle".toList 5, [])

def collidingRun : List (FontCall × List Io) :=
  [sessionInstall 0 "A".toList "/a".toList, sessionInstall 0 "B".toList "/b".toList,
    sessionInstall 0 "C".toList "/c".toList,
    (.uninstallScopeFont "/c".toList "bundle".toList 5, []),
    (.installFont (Sample.noon 1) (Sample.sourceFont "B".toList 1), [])]

theorem keys_collide :
    ¬ ∀ (u : Int) (w : World) (es : List (FontCall × List Io)), w.config u = some emptyConfig →
      KeysUnique u ((FontCall.service u).after w es) := fun h =>
  absurd (h 100 (.provisioned [100]) collidingRun rfl) (by decide)

theorem keys_unique_spaced :
    KeysUnique 100 ((FontCall.service 100).after (.provisioned [100])
      [sessionInstall 0 "A".toList "/a".toList, sessionInstall 1 "B".toList "/b".toList]) :=
  keys_unique rfl
    ⟨⟨by decide, by decide, by decide, by decide⟩, ⟨by decide, by decide, by decide, by decide⟩,
      trivial⟩

end collision

end KeyUniqueness
