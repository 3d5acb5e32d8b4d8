import FontManager.Concurrent.FontCount

open FontDefine FontManagerUtils FontConfig CJson Interaction Program

namespace InstallLimit

abbrev FontSystem := System sig FontCall FontErrorCode World

abbrev Step := Event FontCall Io

def limit (w : World) : Int := getMaxInstallNum w.maxInstallNum

def WithinLimit (u : Int) (s : FontSystem) : Prop := (fontCount u s.world : Int) ≤ limit s.world

def appends (u : Int) (s : FontSystem) : Step → Bool
  | .spawn _ => false
  | .act i io =>
    match s.operation (.act i io : Step) with
    | some (.config v (.insertScopeFontRecord _)) => v = u && io.stores
    | _ => false

def Room (u : Int) (s : FontSystem) (e : Step) : Prop :=
  appends u s e = true → (fontCount u s.world : Int) < limit s.world

instance (u : Int) (s : FontSystem) : Decidable (WithinLimit u s) :=
  inferInstanceAs (Decidable (_ ≤ _))

instance (u : Int) (s : FontSystem) (e : Step) : Decidable (Room u s e) :=
  inferInstanceAs (Decidable (_ → _))

def reports (m : Int) : (o : Op) → o.Reply → Prop
  | .getMaxInstallNum, r => r = m
  | _, _ => True

def limited (m : Int) : Op → Prop
  | .config _ (.insertFontRecord _ _) => False
  | .config _ (.insertFontRecordIfUnderLimit _ _ maxCount) => maxCount = m
  | _ => True

theorem permits (m u : Int) : Permits (reports m) (limited m) u where
  file _ := trivial
  config op hop := by cases op <;> trivial
  limit := trivial
  publish _ := trivial

structure Governed (m : Int) (s : FontSystem) : Prop where
  limit : limit s.world = m
  threads : ∀ t ∈ s.threads, always (P := sig) (reports m) (limited m) t.program

section step

variable {m u : Int} {s t : FontSystem} {e : Step}

theorem exec_reports {w : World} (hw : limit w = m) (o : Op) (io : Io) :
    reports m o (w.exec o io).1 := by
  cases o with
  | getMaxInstallNum => exact hw
  | _ => trivial

theorem governed_step (hs : Governed m s) (h : (FontCall.service u).machine.next s e = some t) :
    Governed m t := by
  cases e with
  | spawn c =>
    obtain rfl := Service.next_spawn h
    refine ⟨hs.limit, fun t ht => ?_⟩
    rcases List.mem_append.mp ht with ht | ht
    · exact hs.threads t ht
    · obtain rfl := List.mem_singleton.mp ht
      exact (permits m u).call (fun _ => trivial) (fun _ _ _ _ hm => hm) (fun _ _ => trivial) c
  | act i io =>
    obtain ⟨c, o, k, hthread, -, rfl⟩ := Service.next_act h
    refine ⟨?_, fun t ht => ?_⟩
    · rw [← hs.limit, limit, limit]
      exact congrArg _ (FontCount.exec_maxInstallNum s.world o io)
    · rcases Service.mem_advance ht with ht | rfl
      · exact hs.threads t ht
      · exact (hs.threads _ (List.mem_of_getElem? hthread)).2 _ (exec_reports hs.limit o io)

theorem within_step (hs : Governed m s) (hw : WithinLimit u s) (hroom : Room u s e)
    (h : (FontCall.service u).machine.next s e = some t) : WithinLimit u t := by
  have hlimit : limit t.world = limit s.world := (governed_step hs h).limit.trans hs.limit.symm
  rw [WithinLimit, hlimit]
  cases e with
  | spawn c =>
    obtain rfl := Service.next_spawn h
    exact hw
  | act i io =>
    obtain ⟨c, o, k, hthread, hop, rfl⟩ := Service.next_act h
    have hsafe := (hs.threads _ (List.mem_of_getElem? hthread)).1
    rcases FontCount.count_exec u s.world o io with hle |
      ⟨op, rfl, hio, json, done, failed, hedit, hcount⟩
    · exact Int.le_trans (Int.ofNat_le.mpr hle) hw
    · have hbelow : op.inserts = true → (fontCount u s.world : Int) < limit s.world := by
        intro hins
        cases op with
        | insertFontRecord path names => exact hsafe.elim
        | insertFontRecordIfUnderLimit path names maxCount =>
          rw [hs.limit, ← hsafe]
          exact FontCount.length_under_limit hedit
        | insertScopeFontRecord record =>
          exact hroom (by simp only [appends, hop, hio, decide_true, Bool.and_self])
        | _ => cases hins
      have hgrow := (Mutation.of_edit hedit).length_listed
      rw [← hcount] at hgrow
      change fontCount u (s.world.exec (.config u op) io).2 ≤
        fontCount u s.world + op.inserts.toNat at hgrow
      change (fontCount u (s.world.exec (.config u op) io).2 : Int) ≤ limit s.world
      unfold WithinLimit at hw
      cases hins : op.inserts with
      | false =>
        rw [hins, Bool.toNat_false] at hgrow
        omega
      | true =>
        have hlt := hbelow hins
        rw [hins, Bool.toNat_true] at hgrow
        omega

theorem limit_pos (w : World) : 0 < limit w := by
  unfold limit getMaxInstallNum defaultMaxInstallNum
  split <;> omega

theorem count_appended {w : World} (record : FontRecordInfo) {io : Io} (hio : io.stores = true)
    (hcount : 0 < fontCount u w) :
    fontCount u (w.exec (.config u (.insertScopeFontRecord record)) io).2 = fontCount u w + 1 := by
  obtain ⟨hread, hwrite⟩ := Io.stores_iff.mp hio
  have harray : arrayList (w.config u) = true :=
    Mutation.arrayList_of_listed (List.ne_nil_of_length_pos hcount)
  cases hconfig : w.config u with
  | none => simp [hconfig, arrayList] at harray
  | some j =>
    rw [hconfig] at harray
    obtain ⟨json, hedit⟩ := Mutation.edit_insertScope io.fullNames (configPath u) record harray
    have hkeys := congrArg List.length (Mutation.of_edit hedit).listedKeys_eq
    rw [if_pos harray, ConfigOp.expected, List.length_append, listedKeys, listedKeys,
      List.length_map, List.length_map, List.length_singleton] at hkeys
    rw [fontCount, fontCount, World.exec, World.execConfig_readable hread, hconfig, hedit, hwrite]
    simpa [World.applyEdit, World.writeFile, World.config_configPath] using hkeys

theorem room_of_within (hs : Governed m s) (ht : WithinLimit u t)
    (h : (FontCall.service u).machine.next s e = some t) : Room u s e := by
  intro happ
  have hlimit : limit t.world = limit s.world := (governed_step hs h).limit.trans hs.limit.symm
  rw [WithinLimit, hlimit] at ht
  cases e with
  | spawn c => cases happ
  | act i io =>
    obtain ⟨c, o, k, hthread, hop, rfl⟩ := Service.next_act h
    simp only [appends, hop] at happ
    split at happ
    · rename_i v record heq
      obtain rfl := Option.some.inj heq
      obtain ⟨hv, hio⟩ := Bool.and_eq_true_iff.mp happ
      obtain rfl := of_decide_eq_true hv
      by_contra hfull
      have hpos := limit_pos s.world
      have hcount := count_appended record hio (u := v) (w := s.world) (by omega)
      change (fontCount v (s.world.exec (.config v (.insertScopeFontRecord record)) io).2 : Int) ≤
        limit s.world at ht
      omega
    · cases happ

end step

theorem start_governed (w : World) : Governed (limit w) ⟨w, []⟩ := ⟨rfl, by simp⟩

theorem limit_kept_iff {u : Int} {w : World} (h : WithinLimit u ⟨w, []⟩) (es : List Step)
    (t : FontSystem) :
    (FontCall.service u).machine.Run (Room u) ⟨w, []⟩ es t ↔
      (FontCall.service u).machine.Run (fun _ _ => True) ⟨w, []⟩ es t ∧
        ∀ fs s, fs <+: es → (FontCall.service u).machine.Run (fun _ _ => True) ⟨w, []⟩ fs s →
          WithinLimit u s := by
  refine Machine.Run.iff_always (Governed (limit w)) (WithinLimit u)
    (fun _ _ _ hs hn => governed_step hs hn) (fun _ _ _ hs hw hn => ?_) (start_governed w) h
  exact ⟨fun ht => room_of_within hs ht hn, fun hroom => within_step hs hw hroom hn⟩

section crowd

def filler (i : Nat) : Record :=
  .user (installPathApp ++ Text.decimal i ++ ".ttf".toList) [Text.decimal i]

def crowded (n : Nat) : World :=
  (World.provisioned [100]).put (configPath 100)
    (.document (RecordStore.document ((List.range n).map filler)))

def scopeInstall (tokenId : Int) (fullName srcPath : Str) : Step :=
  .spawn (.installScopeFont (Sample.noon 0) (Sample.sourceFont fullName 1) fontScopeApp srcPath
    "bundle".toList tokenId)

def racingInstalls : List Step :=
  [scopeInstall 5 "A".toList "/a".toList, scopeInstall 6 "B".toList "/b".toList] ++
    Sample.acts 0 15 ++ Sample.acts 1 15 ++ Sample.acts 0 1 ++ Sample.acts 1 1

theorem limit_exceeded :
    ¬ ∀ (u : Int) (w : World) (es : List Step) (t : FontSystem), WithinLimit u ⟨w, []⟩ →
      (FontCall.service u).machine.Run (fun _ _ => True) ⟨w, []⟩ es t → WithinLimit u t := by
  intro h
  obtain ⟨t, hrun, hover⟩ := Machine.exists_run_of_replay (m := (FontCall.service 100).machine)
    (fun _ _ => true) (fun t => decide (¬ WithinLimit 100 t)) ⟨crowded 199, []⟩ racingInstalls
    (by decide +kernel)
  exact of_decide_eq_true hover (h 100 (crowded 199) racingInstalls t (by decide +kernel)
    (hrun.mono fun _ _ _ => trivial))

def successiveInstalls : List Step :=
  [scopeInstall 5 "A".toList "/a".toList, scopeInstall 6 "B".toList "/b".toList] ++
    Sample.acts 0 16 ++ Sample.acts 1 7

theorem limit_kept_successive :
    ∃ t, fontCount 100 t.world = 200 ∧
      (FontCall.service 100).machine.Run (fun _ _ => True) ⟨crowded 199, []⟩ successiveInstalls t ∧
        ∀ fs s, fs <+: successiveInstalls →
          (FontCall.service 100).machine.Run (fun _ _ => True) ⟨crowded 199, []⟩ fs s →
            WithinLimit 100 s := by
  obtain ⟨t, hrun, hcount⟩ := Machine.exists_run_of_replay (m := (FontCall.service 100).machine)
    (fun s e => decide (Room 100 s e)) (fun t => fontCount 100 t.world = 200) ⟨crowded 199, []⟩
    successiveInstalls (by decide +kernel)
  refine ⟨t, of_decide_eq_true hcount, ?_⟩
  exact (limit_kept_iff (by decide +kernel) successiveInstalls t).mp
    (hrun.mono fun _ _ h => of_decide_eq_true h)

end crowd

end InstallLimit
