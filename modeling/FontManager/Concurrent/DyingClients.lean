import FontManager.Concurrent.AppDirectories
import FontManager.Concurrent.Permits
import FontManager.Sequential.Containment

open FontDefine FontManagerUtils FontConfig FontLocation CJson Interaction Program

def WriteOutcome.intact : WriteOutcome → Bool
  | .complete => true
  | .openFails => true
  | _ => false

namespace LateDeath

def recordOf (t : Int) (item : Json) : Bool :=
  ofApp (makeAppIdentifier fontScopeApp t) item || ofApp (makeAppIdentifier fontScopeSession t) item

-- The records and the font files of the application t, in every user's directory.
structure Untouched (t : Int) (w v : World) : Prop where
  records : ∀ u, ∀ item ∈ listed (w.config u), recordOf t item = true → item ∈ listed (v.config u)
  files : ∀ u scope l, v.tree.lookup (userDir u ++ makeAppIdentifier scope t :: l) =
    w.tree.lookup (userDir u ++ makeAppIdentifier scope t :: l)

def appDir (client : Str × Int) : Loc := userDir client.2 ++ [client.1]

def located (client : Str × Int) (record : FontRecordInfo) : Bool :=
  decide (appDir client <+: locate (lexicallyNormal (realPath client.2 record.fontPath)))

def own (client : Str × Int) : Op → Prop
  | .config _ (.getFontRecordsByAppId _) => True
  | .config _ (.deleteScopeFontRecordByUrl _) => True
  | .file (.exists _) => True
  | .file (.weaklyCanonical _) => True
  | .file (.removeAll path) => appDir client <+: locate path
  | .publishFontUpdate _ => True
  | _ => False

def Found (client : Str × Int) : (o : Op) → o.Reply → Prop
  | .config _ (.getFontRecordsByAppId _), records => ∀ record ∈ records, located client record = true
  | _, _ => True

def cleaning (client : Str × Int) : Protocol sig Unit where
  allows _ o := own client o
  replies _ o r := Containment.Canonical o r ∧ Found client o r
  after _ _ _ := ()

abbrev Cleans {α : Type} (client : Str × Int) (post : α → Prop) (p : FontTask α) : Prop :=
  (cleaning client).Follows (fun a _ => post a) () p

section cleaning

variable {client : Str × Int} {α β : Type}

theorem Cleans.bind {post : β → Prop} {R : α → Prop} {p : FontTask α} {f : α → FontTask β}
    (hp : Cleans client R p) (hf : ∀ a, R a → Cleans client post (f a)) :
    Cleans client post (p >>= f) :=
  Protocol.follows_bind (Protocol.follows_mono (fun a _ h => hf a h) hp)

theorem Cleans.of_always {p : FontTask α}
    (h : always (P := sig) (fun _ _ => True) (own client) p) : Cleans client (fun _ => True) p :=
  Protocol.follows_of_always (fun _ _ _ => trivial) (fun _ ho => ⟨ho, fun _ => rfl⟩) h
    fun _ => trivial

theorem erases_own {path : Str} (h : appDir client <+: locate path) :
    ErasePermits (fun _ _ => True) (own client) path := ⟨trivial, h⟩

theorem cleans_validateAndResolveRealPath {u : Int} {record : FontRecordInfo}
    (h : located (client.1, u) record = true) :
    Cleans client (fun r => r = [] ∨ appDir (client.1, u) <+: locate r)
      (FontManager.validateAndResolveRealPath (installPath u) record.fontPath) := by
  unfold FontManager.validateAndResolveRealPath
  split
  · exact Or.inl rfl
  · refine Protocol.follows_perform_bind trivial fun r hr => ?_
    cases r with
    | none => exact Or.inl rfl
    | some canonicalStr =>
      refine Protocol.follows_perform_bind trivial fun r' _ => ?_
      cases r' with
      | none => exact Or.inl rfl
      | some canonicalInstall =>
        obtain rfl := hr.1 canonicalStr rfl
        dsimp only
        split
        · exact Or.inr (of_decide_eq_true h)
        · exact Or.inl rfl

theorem cleans_sweepRecords {records : List FontRecordInfo}
    (h : ∀ record ∈ records, located client record = true) :
    Cleans client (fun _ => True) (FontManager.sweepRecords client.2 records) := by
  induction records with
  | nil => trivial
  | cons record rest ih =>
    refine Cleans.bind (cleans_validateAndResolveRealPath (h record List.mem_cons_self))
      fun r hr => ?_
    have hremoval : always (P := sig) (fun _ _ => True) (own client) (FontManager.removeIfExists r) := by
      rcases hr with rfl | hr
      · exact always_pure _
      · exact (erases_own hr).removeIfExists
    refine Cleans.bind (Cleans.of_always hremoval) fun _ _ => ?_
    refine Protocol.follows_perform_bind trivial fun _ _ => ?_
    exact ih fun r hr => h r (List.mem_cons_of_mem _ hr)

theorem cleans_cleanup (scope t u : Int) :
    Cleans (makeAppIdentifier scope t, u) (fun _ => True)
      (FontClientRegistry.cleanup (makeAppIdentifier scope t, u)) := by
  have hdir : locate (FontManager.getAppInstallPath u (makeAppIdentifier scope t)) =
      appDir (makeAppIdentifier scope t, u) := by
    rw [getAppInstallPath_eq, locate_dirPath (appDir_plain u (makeAppIdentifier_plain scope t)), appDir]
  unfold FontClientRegistry.cleanup
  split
  · refine Cleans.bind (R := fun _ => True) ?_ fun _ _ => trivial
    refine Protocol.follows_perform_bind trivial fun records hrecords => ?_
    refine Cleans.bind (cleans_sweepRecords hrecords.2) fun _ _ => ?_
    refine Cleans.bind (Cleans.of_always (always_reportRemoved (fun _ => trivial) _)) fun _ _ => ?_
    refine Cleans.bind (Cleans.of_always (erases_own ?_).deleteDir) fun _ _ => trivial
    rw [hdir]
  · trivial

end cleaning

section untouched

variable {t u : Int} {w v : World} {io : Io}

theorem Untouched.of_tree (h : v.tree = w.tree) : Untouched t w v := by
  have hconfig : ∀ x, v.config x = w.config x := fun x => World.config_congr (by rw [h])
  refine ⟨fun x item hitem _ => ?_, fun x scope l => by rw [h]⟩
  rwa [hconfig]

theorem listed_deleted {srcPath : Str} {item : Json}
    (haim : ∀ found, (listed (w.config u)).find? (atUrl srcPath) = some found →
      io.write.intact = true ∧ found ≠ item)
    (hitem : item ∈ listed (w.config u)) :
    item ∈ listed ((w.execConfig u (.deleteScopeFontRecordByUrl srcPath) io).2.config u) := by
  cases hread : io.ok with
  | false =>
    rw [World.execConfig_unreadable hread]
    exact hitem
  | true =>
  rw [World.execConfig_readable hread]
  cases hedit : (ConfigOp.deleteScopeFontRecordByUrl srcPath).edit io.fullNames (configPath u)
      (w.config u) with
  | keep reply => exact hitem
  | write json done failed =>
    obtain ⟨found, hfound⟩ := Mutation.found_deleteFirst hedit
    obtain ⟨hintact, hne⟩ := haim found hfound
    cases hwrite : io.write with
    | openFails => exact hitem
    | short left | lost left => simp [hwrite, WriteOutcome.intact] at hintact
    | complete =>
      simp only [World.applyEdit, World.writeFile, World.config_configPath]
      have harray : arrayList (w.config u) = true :=
        Mutation.arrayList_of_listed (List.ne_nil_of_mem hitem)
      rw [(Mutation.of_edit hedit).listed_eq, if_pos harray]
      exact LastingFonts.mem_eraseP_of_find hitem fun he => hne (Option.some.inj (hfound ▸ he))

theorem other_id {c : Int} (hne : t ≠ c) (scope : Int) :
    makeAppIdentifier fontScopeApp c ≠ makeAppIdentifier scope t := by
  intro he
  by_cases hscope : scope = fontScopeApp
  · exact hne (makeAppIdentifier_injective (Or.inl rfl) (Or.inl hscope) he).2.symm
  · have hsession : makeAppIdentifier scope t = makeAppIdentifier fontScopeSession t := by
      rw [makeAppIdentifier, if_neg hscope, makeAppIdentifier, if_neg (by decide)]
    exact hne (makeAppIdentifier_injective (Or.inl rfl) (Or.inr rfl) (he.trans hsession)).2.symm

theorem outside_dir {client : Str × Int} {path c : Str} {l : Loc} {v : Int}
    (hpath : appDir client <+: locate path) (hid : client.1 ≠ c) :
    ¬ locate path <+: userDir v ++ c :: l := by
  intro h
  have hdir := hpath.trans h
  obtain hu := userDir_leads hdir
  rw [appDir, hu, List.prefix_append_right_inj] at hdir
  exact hid (List.cons_prefix_cons.mp hdir).1

theorem untouched_exec {c : Int} {o : Op} (ho : own (makeAppIdentifier fontScopeApp c, u) o)
    (hne : t ≠ c)
    (haim : ∀ x srcPath item, o = .config x (.deleteScopeFontRecordByUrl srcPath) →
      (listed (w.config x)).find? (atUrl srcPath) = some item →
      io.write.intact = true ∧ recordOf t item = false) :
    Untouched t w (w.exec o io).2 := by
  cases o with
  | config x op =>
    refine ⟨fun y item hitem hown => ?_, fun y scope l => ?_⟩
    · by_cases hxy : x = y
      · subst hxy
        cases op with
        | getFontRecordsByAppId id => exact hitem
        | deleteScopeFontRecordByUrl srcPath =>
          refine listed_deleted (fun found hfound => ?_) hitem
          obtain ⟨hintact, hother⟩ := haim x srcPath found rfl hfound
          exact ⟨hintact, fun he => by simp [← he, hother] at hown⟩
        | _ => exact ho.elim
      · have hne : ¬ configLoc y = configLoc x := fun h => hxy (configLoc_injective h).symm
        show item ∈ listed ((w.execConfig x op io).2.config y)
        rwa [World.config_frame (w.execConfig_frame x op io) hne]
    · refine (w.execConfig_frame x op io).tree _ fun he => ?_
      obtain rfl := userDir_leads (FileTree.prefix_of_eq he)
      have hname := List.append_cancel_left he
      exact fontConfigFile_ne_app scope t (List.cons.inj hname).1
  | file op =>
    cases op with
    | removeAll path =>
      have hframe := w.removeAll_frame path io
      refine ⟨fun y item hitem _ => ?_, fun y scope l => ?_⟩
      · show item ∈ listed ((w.removeAll path io).2.config y)
        rwa [World.config_frame hframe (outside_dir ho (fontConfigFile_ne_app fontScopeApp c))]
      · exact hframe.tree _ (outside_dir ho (other_id hne scope))
    | «exists» path => exact .of_tree rfl
    | weaklyCanonical path => exact .of_tree rfl
    | _ => exact ho.elim
  | registry op => exact ho.elim
  | _ => exact .of_tree rfl

end untouched

end LateDeath
