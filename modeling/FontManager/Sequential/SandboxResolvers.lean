import FontManager.Sequential.InstallContract
import FontManager.Sequential.MigrationOutcome
import FontManager.Sequential.UninstallInverse

open FontDefine FontManagerUtils FontLocation FontConfig StoreInvariant UninstallInverse Interaction
  CJson

namespace SandboxResolvers

variable {u : Int} {s : Slot} {w : World} {v v' : View} {w' : World}

theorem configResolved (h : s.Valid) (u : Int) :
    FontConfig.sandBoxPathToRealPath (configPath u) s.sandbox = joinPath (userDir u ++ [s.name]) := by
  rw [Migration.sandBoxPathToRealPath_configPath, getFileName_sandbox h, dirPath_append_name]

theorem managerResolved (s : Slot) (u : Int) :
    FontManager.sandBoxPathToRealPath (installPath u) s.sandbox = joinPath (s.loc u) :=
  realPath_sandbox u s

-- The config keeps only the file name, so a sub-directory is lost on its side.
theorem resolved_eq_iff (h : s.Valid) (u : Int) :
    FontConfig.sandBoxPathToRealPath (configPath u) s.sandbox =
      FontManager.sandBoxPathToRealPath (installPath u) s.sandbox ↔ s.dir = none := by
  have hname : ∀ c ∈ userDir u ++ [s.name], Plain c := by
    intro c hc
    rcases List.mem_append.mp hc with hc | hc
    · exact userDir_plain u c hc
    · exact List.mem_singleton.mp hc ▸ h.tagged.plain
  rw [configResolved h, managerResolved]
  constructor
  · intro heq
    have hloc := congrArg locate heq
    rw [locate_joinPath hname, locate_joinPath (loc_plain h u), Slot.loc, Slot.sub] at hloc
    have hdir : [] = s.dir.toList := List.append_cancel_right (List.append_cancel_left hloc)
    exact Option.toList_eq_nil_iff.mp hdir.symm
  · intro hdir
    rw [Slot.loc, Slot.sub, hdir]
    rfl

structure Stored (u : Int) (c : FontCall) (s : Slot) (w : World) (p : Str) : Prop where
  valid : s.Valid
  path : p = s.sandbox
  level : s.dir = none ↔ ∃ env fd, c = .installFont env fd
  file : ∃ fd ∈ c.source, w.tree.lookup (s.loc u) = some (.bytes fd.content)

theorem added_item {rs : List Record} {r : Record} {item : Json} {p : Str} (hs : v.Shrinks (some rs))
    (hin : item ∈ (View.records (some (rs ++ [r]))).map Record.item)
    (hnew : item ∉ v.records.map Record.item) (hpath : stringItem item fontPath = some p) :
    r.fontPath = p := by
  obtain ⟨q, hq, rfl⟩ := List.mem_map.mp hin
  rcases List.mem_append.mp hq with hq | hq
  · exact absurd (List.mem_map_of_mem (hs.records_sublist.subset hq)) hnew
  · obtain rfl := List.mem_singleton.mp hq
    exact Option.some.inj (q.stringItem_fontPath.symm.trans hpath)

theorem not_shrunk {item : Json} (hs : v.Shrinks v') (hin : item ∈ v'.records.map Record.item)
    (hnew : item ∉ v.records.map Record.item) : False :=
  hnew ((hs.records_sublist.map Record.item).subset hin)

theorem stored_of_effect {ok : World → Op → Io → Prop} {c : FontCall} {code : FontErrorCode} {item : Json} {p : Str}
    (h : c.Effect ok u v w code v' w') (hin : item ∈ v'.records.map Record.item)
    (hnew : item ∉ v.records.map Record.item) (hpath : stringItem item fontPath = some p) :
    ∃ s, Stored u c s w' p := by
  cases c with
  | installFont env fd =>
    cases h with
    | failed _ hs => exact (not_shrunk hs hin hnew).elim
    | skipped _ hs => exact (not_shrunk hs hin hnew).elim
    | lost => cases hin
    | stored hs _ _ _ hfile =>
      have hp := added_item hs hin hnew hpath
      rw [user_fontPath] at hp
      exact ⟨_, userSlot_valid env fd, hp.symm, iff_of_true rfl ⟨env, fd, rfl⟩, fd, rfl, hfile⟩
  | installScopeFont env fd scope srcPath bundleName t =>
    cases h with
    | failed _ hs => exact (not_shrunk hs hin hnew).elim
    | skipped _ hs => exact (not_shrunk hs hin hnew).elim
    | lost => cases hin
    | stored hs _ _ _ hfile =>
      have hp := added_item hs hin hnew hpath
      rw [app_fontPath] at hp
      refine ⟨_, appSlot_valid env fd scope t, hp.symm, iff_of_false (by simp [appSlot]) ?_, fd, rfl,
        hfile⟩
      rintro ⟨_, _, hc⟩
      cases hc
  | uninstallFont name => exact (not_shrunk h hin hnew).elim
  | uninstallScopeFont srcPath bundleName t => exact (not_shrunk h hin hnew).elim
  | cleanupAppScopeFonts scope t => exact (not_shrunk h hin hnew).elim
  | cleanupScopeFontsByUser => exact (not_shrunk h hin hnew).elim
  | cleanupAppScopeFontsByUser => exact (not_shrunk h hin hnew).elim

theorem resolvers_agree_iff (es : List (FontCall × List Io)) (e : FontCall × List Io) {item : Json}
    {p : Str} (h : w.config u = some emptyConfig)
    (hin : item ∈ listed (((FontCall.service u).after w (es ++ [e])).config u))
    (hnew : item ∉ listed (((FontCall.service u).after w es).config u))
    (hpath : stringItem item fontPath = some p) :
    (FontConfig.sandBoxPathToRealPath (configPath u) p =
        FontManager.sandBoxPathToRealPath (installPath u) p ∧
      ∃ fd ∈ e.1.source, ((FontCall.service u).after w (es ++ [e])).entry
        (FontManager.sandBoxPathToRealPath (installPath u) p) = some (.bytes fd.content)) ↔
    ∃ env fd, e.1 = .installFont env fd := by
  obtain ⟨v, hp, -, hv⟩ := reachable_userPaths h es
  obtain ⟨v', hv', heffect⟩ :=
    FontCall.complete_unchecked hp hv e.1 e.2
  have hafter : (FontCall.service u).after w (es ++ [e]) =
      ((FontCall.service u).complete ((FontCall.service u).after w es) e).2 := by
    simp [Service.after]
  rw [hafter, listed_shows hv'] at hin
  rw [listed_shows hv] at hnew
  obtain ⟨s, hs⟩ := stored_of_effect heffect hin hnew hpath
  rw [hafter, hs.path, resolved_eq_iff hs.valid, ← hs.level, managerResolved, World.entry,
    locate_joinPath (loc_plain hs.valid u)]
  exact and_iff_left hs.file

section installs

def fileName : Str := FontManager.taggedName (Sample.noon 0) "source.ttf".toList

def scopeInstall : FontCall × List Io :=
  (.installScopeFont (Sample.noon 0) (Sample.sourceFont "A".toList 1) fontScopeApp
    "/src/a.ttf".toList "bundle".toList 5, [])

def scopeItem : Json := constructScopeCJSON (installedInfo (Sample.noon 0)
  (FontCall.info 100 (Sample.sourceFont "A".toList 1) fontScopeApp "/src/a.ttf".toList
    "bundle".toList 5))

def userItem : Json := constructCJSON (installPathApp ++ fileName) ["A".toList]

theorem listed_provisioned (item : Json) :
    item ∉ listed (((FontCall.service 100).after (.provisioned [100]) []).config 100) := by
  have hnone : listed (((FontCall.service 100).after (.provisioned [100]) []).config 100) = [] := rfl
  simp [hnone]

set_option maxRecDepth 8000 in
theorem app_path_differs :
    ¬ ∀ (u : Int) (w : World) (es : List (FontCall × List Io)) (e : FontCall × List Io) (item : Json)
      (p : Str), w.config u = some emptyConfig →
      item ∈ listed (((FontCall.service u).after w (es ++ [e])).config u) →
      item ∉ listed (((FontCall.service u).after w es).config u) →
      stringItem item fontPath = some p →
      FontConfig.sandBoxPathToRealPath (configPath u) p =
        FontManager.sandBoxPathToRealPath (installPath u) p := by
  intro h
  have hlisted : listed (((FontCall.service 100).after (.provisioned [100]) [scopeInstall]).config 100) =
      [scopeItem] := rfl
  have hagree := h 100 (.provisioned [100]) [] scopeInstall scopeItem
    (installPathApp ++ "app_5/".toList ++ fileName) rfl (hlisted ▸ List.mem_singleton_self scopeItem)
    (listed_provisioned scopeItem) rfl
  exact absurd hagree (by decide)

set_option maxRecDepth 8000 in
theorem user_path_agrees :
    FontConfig.sandBoxPathToRealPath (configPath 100) (installPathApp ++ fileName) =
        FontManager.sandBoxPathToRealPath (installPath 100) (installPathApp ++ fileName) ∧
      ∃ fd ∈ (InstallContract.installAt 0 "A".toList 1).1.source,
        ((FontCall.service 100).after (.provisioned [100])
          [InstallContract.installAt 0 "A".toList 1]).entry
          (FontManager.sandBoxPathToRealPath (installPath 100) (installPathApp ++ fileName)) =
        some (.bytes fd.content) := by
  have hlisted : listed (((FontCall.service 100).after (.provisioned [100])
      [InstallContract.installAt 0 "A".toList 1]).config 100) = [userItem] := rfl
  exact (resolvers_agree_iff [] (InstallContract.installAt 0 "A".toList 1) rfl
    (hlisted ▸ List.mem_singleton_self userItem) (listed_provisioned userItem) rfl).mpr ⟨_, _, rfl⟩

end installs

end SandboxResolvers
