import FontManager.Sequential.StoreInvariant

open FontDefine FontManagerUtils FontLocation FontConfig StoreInvariant Interaction CJson

namespace InstallContract

def InstallFaithful (u : Int) (w w' : World) (fd : Fd) : Prop :=
  ∃ front item back, listed (w'.config u) = front ++ item :: back ∧
    fullNamesOf item = getFullNamesByFd fd ∧
    (∃ path, stringItem item fontPath = some path ∧
      w'.entry (realPath u path) = some (.bytes fd.content)) ∧
    ∀ other ∈ front ++ back, ∀ path, stringItem other fontPath = some path →
      w'.entry (realPath u path) = w.entry (realPath u path)

def Reported (u : Int) (w : World) (e : FontCall × List Io) : Prop :=
  ∀ fd ∈ e.1.source, ((FontCall.service u).complete w e).1 = .ok →
    InstallFaithful u w ((FontCall.service u).complete w e).2 fd

def Honest (io : Io) : Prop := ∀ left, io.write ≠ .lost left

structure Fits (u : Int) (w : World) (e : FontCall × List Io) : Prop where
  honest : ∀ io ∈ e.2, Honest io
  names : NamesNulFree e.1
  unclaimed : Unclaimed u w e.1
  reads : Program.Along semantics (fun w o io => attentive w o io = true) (e.1.program u) w e.2

variable {u : Int} {v v' : View} {w w' : World}

theorem faithful_of_stored {s : Slot} {rs : List Record} {r : Record} {fd : Fd}
    (hvalid : s.Valid) (hp : v.Placed) (hs : v.Shrinks (some rs))
    (hpath : r.fontPath = s.sandbox) (hnames : r.fullNames = getFullNamesByFd fd)
    (hfresh : ∀ q ∈ rs, q.fontPath ≠ s.sandbox) (hframe : Frame (InstallTouches u s) w w')
    (hfile : w'.tree.lookup (s.loc u) = some (.bytes fd.content))
    (hv' : View.Shows u (some (rs ++ [r])) w') : InstallFaithful u w w' fd := by
  refine ⟨rs.map Record.item, r.item, [], ?_, ?_, ⟨r.fontPath, r.stringItem_fontPath, ?_⟩, ?_⟩
  · rw [listed_shows hv']
    simp [View.records]
  · rw [r.fullNamesOf_item, hnames]
  · rw [hpath, World.entry, locate_realPath hvalid]
    exact hfile
  · intro other hother path hq
    obtain ⟨q, hmem, rfl⟩ := List.mem_map.mp (by simpa using hother)
    obtain ⟨s', hs'⟩ := hp.shrinks hs q hmem
    obtain rfl : q.fontPath = path := Option.some.inj (q.stringItem_fontPath ▸ hq)
    have hne : s ≠ s' := by
      rintro rfl
      exact hfresh q hmem hs'.path
    rw [hs'.path, World.entry, World.entry, locate_realPath hs'.valid]
    exact hframe.tree _ (not_installTouches hvalid hs'.valid hne)

def careful (w : World) (o : Op) (io : Io) : Prop := Honest io ∧ attentive w o io = true

theorem careful_attentive : Attentive careful := fun _ _ _ h => h.2

theorem honest_default : Honest default := fun _ h => by cases h

theorem Fits.careful {e : FontCall × List Io} (h : Fits u w e) :
    Program.Along semantics careful (e.1.program u) w e.2 := by
  refine (Program.Along.of_forall (fun io hio _ _ => ?_) _ _).and h.reads
  rcases List.mem_cons.mp hio with rfl | hio
  · exact honest_default
  · exact h.honest io hio

theorem reported_of_effect {e : FontCall × List Io} (hfits : Fits u w e) (hv : v.Shows u w)
    (hs : Sound v.records) {fd : Fd} (hfd : e.1.source = some fd)
    (hv' : v'.Shows u w') (h : e.1.Effect careful u v w .ok v' w') : InstallFaithful u w w' fd := by
  obtain ⟨c, ios⟩ := e
  cases c with
  | installFont env fd' =>
    obtain rfl := Option.some.inj hfd
    have ht := target_user env fd'
    cases h with
    | failed hcode => exact absurd rfl hcode
    | skipped _ hsh hn hq =>
      obtain ⟨q, hmem, hpath⟩ := hq
      exact absurd hpath (unclaimed_fresh hfits.unclaimed hv ht rfl hsh (hn careful_attentive hs)
        (by simp [FontCall.url])
        q hmem)
    | lost hio hl => exact absurd hl (hio.1 _)
    | stored hsh hn hfresh hframe hfile =>
      exact faithful_of_stored (userSlot_valid env fd') hs.placed hsh (user_fontPath env fd' _)
        (user_fullNames (hfits.names fd' rfl)) hfresh hframe hfile hv'
  | installScopeFont env fd' scope srcPath bundleName t =>
    obtain rfl := Option.some.inj hfd
    have ht := target_app env fd' scope srcPath bundleName t
    cases h with
    | failed hcode => exact absurd rfl hcode
    | skipped hd => cases hd
    | lost hio hl => exact absurd hl (hio.1 _)
    | stored hsh hn hfresh hframe hfile =>
      have hpaths := unclaimed_fresh hfits.unclaimed hv ht rfl hsh (hn careful_attentive hs) fun q hq k hk => by
        obtain rfl : srcPath = k := Option.some.inj hk
        exact hfresh.2 careful_attentive q hq
      exact faithful_of_stored (appSlot_valid env fd' scope t) hs.placed hsh
        (app_fontPath env u fd' scope srcPath bundleName t) (app_fullNames (hfits.names fd' rfl))
        hpaths hframe hfile hv'
  | uninstallFont name => cases hfd
  | uninstallScopeFont srcPath bundleName t => cases hfd
  | cleanupAppScopeFonts scope t => cases hfd
  | cleanupScopeFontsByUser => cases hfd
  | cleanupAppScopeFontsByUser => cases hfd

def Consistent (u : Int) (w : World) : Prop := ∃ v : View, v.Shows u w ∧ Sound v.records

theorem consistent_step {e : FontCall × List Io} (hw : Consistent u w) (he : Fits u w e) :
    Consistent u ((FontCall.service u).complete w e).2 := by
  obtain ⟨v, hv, hs⟩ := hw
  obtain ⟨v', hv', heffect⟩ :=
    FontCall.complete_effect hs.placed hv e.1 he.careful
  exact ⟨v', hv', sound_effect careful_attentive he.names (fun _ => he.unclaimed) hv hs heffect⟩

theorem consistent_of_empty (h : w.config u = some emptyConfig) : Consistent u w :=
  ⟨some [], shows_empty h, .nil⟩

theorem install_reported (es : List (FontCall × List Io)) (e : FontCall × List Io)
    (h : w.config u = some emptyConfig) (hes : (FontCall.service u).Met (Fits u) w es)
    (he : Fits u ((FontCall.service u).after w es) e) :
    Reported u ((FontCall.service u).after w es) e := by
  obtain ⟨v, hv, hs⟩ := hes.invariant (fun _ _ => consistent_step) (consistent_of_empty h)
  obtain ⟨v', hv', heffect⟩ :=
    FontCall.complete_effect hs.placed hv e.1 he.careful
  intro fd hfd hok
  have hok' : (FontCall.service u).complete ((FontCall.service u).after w es) (e.1, e.2) =
      (.ok, ((FontCall.service u).complete ((FontCall.service u).after w es) e).2) :=
    Prod.ext hok rfl
  rw [hok'] at heffect
  exact reported_of_effect he hv hs hfd hv' heffect

section collision

def installAt (second : Nat) (fullName : Str) (byte : UInt8) : FontCall × List Io :=
  (.installFont (Sample.noon second) (Sample.sourceFont fullName byte), [])

theorem install_reported_without_record :
    ¬ ∀ (u : Int) (w : World) (es : List (FontCall × List Io)) (e : FontCall × List Io),
      w.config u = some emptyConfig → (∀ d ∈ es ++ [e], ∀ io ∈ d.2, Honest io) →
      Reported u ((FontCall.service u).after w es) e := by
  intro h
  obtain ⟨front, item, back, hlisted, hnames, -⟩ := h 100 (.provisioned [100])
    [installAt 0 "A".toList 1] (installAt 0 "B".toList 2) rfl (by simp [installAt])
    (Sample.sourceFont "B".toList 2) rfl rfl
  have hmem := List.mem_map_of_mem (f := fullNamesOf) (hlisted ▸ List.mem_append_cons_self)
  rw [hnames] at hmem
  exact absurd hmem (by decide)

theorem install_reported_next_second :
    InstallFaithful 100
      ((FontCall.service 100).after (.provisioned [100]) [installAt 0 "A".toList 1])
      ((FontCall.service 100).after (.provisioned [100])
        [installAt 0 "A".toList 1, installAt 1 "B".toList 2])
      (Sample.sourceFont "B".toList 2) :=
  install_reported [installAt 0 "A".toList 1] (installAt 1 "B".toList 2) rfl
    ⟨⟨by simp [installAt], by decide, by decide, by decide⟩, trivial⟩
    ⟨by simp [installAt], by decide, by decide, by decide⟩ _ rfl rfl

end collision

end InstallContract
