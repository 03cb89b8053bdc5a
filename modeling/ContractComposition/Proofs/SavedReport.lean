import ContractComposition.Metrics.Command
import ContractComposition.Proofs.Workloads

/-!
# The saved report

The metrics command always has a report, since the standard workloads are composed within the usual
step budget (`Metrics.exists_measurements`). If it is to save the report and says that it has done
so, then the report can be read from the file that the path names (`Metrics.run_saves_report`). No
other file is changed, be the command successful or not (`Metrics.run_keeps_files`).

Both follow from what putting an entry into a tree of files does to the rest of the tree. A path is
followed through folders only. So it does not matter for following it what else is put into the
tree, as long as no folder is replaced (`FileTree.isFolder_put`), and what was written to a path is
found on the same path (`FileTree.read?_of_write?`).
-/

namespace ContractComposition

namespace FileTree

variable {tree tree' made written child : FileTree} {place folder other parts : List String}
  {name path content : String}

/-! ### Entries and their parents -/

lemma isFolder_cons : tree.isFolder (name :: place) = true ↔
    ∃ child, tree.child? name = some child ∧ child.isFolder place = true := by
  unfold isFolder
  rw [entryAt?]
  cases tree.child? name <;> simp

lemma content?_cons : tree.content? (name :: place) = some content ↔
    ∃ child, tree.child? name = some child ∧ child.content? place = some content := by
  unfold content?
  rw [entryAt?]
  cases tree.child? name <;> simp

/-- Only folders have entries in them. -/
lemma isFolder_of_child?_eq_some (h : tree.child? name = some child) :
    tree.isFolder [] = true := by
  cases tree with
  | file => cases h
  | folder => rfl

lemma isFolder_eq_false_of_content? (h : tree.content? place = some content) :
    tree.isFolder place = false := by
  unfold content? at h
  unfold isFolder
  split at h
  · rename_i hentry
    rw [hentry]
  · cases h

lemma isFolder_of_append (h : tree.isFolder (place ++ other) = true) :
    tree.isFolder place = true := by
  induction place generalizing tree with
  | nil =>
    cases other with
    | nil => exact h
    | cons first rest =>
      obtain ⟨child, hchild, -⟩ := isFolder_cons.1 h
      exact isFolder_of_child?_eq_some hchild
  | cons name place ih =>
    obtain ⟨child, hchild, hrest⟩ := isFolder_cons.1 h
    exact isFolder_cons.2 ⟨child, hchild, ih hrest⟩

/-- The parent of a folder is a folder. -/
lemma isFolder_dropLast (h : tree.isFolder place = true) : tree.isFolder place.dropLast = true := by
  obtain ⟨last, hlast⟩ := List.dropLast_prefix place
  rw [← hlast] at h
  exact isFolder_of_append h

/-! ### Putting an entry into a tree -/

lemma isFolder_setChild (tree : FileTree) (name : String) (child : FileTree) :
    (tree.setChild name child).isFolder [] = true := by
  cases tree <;> rfl

lemma child?_setChild_of_ne {another : String} (h : tree.child? another = some child)
    (hname : another ≠ name) (entry : FileTree) :
    (tree.setChild name entry).child? another = some child := by
  cases tree with
  | file => cases h
  | folder entries =>
    have hothers : (entries.filter fun entry => entry.1 != name).find?
        (fun entry => entry.1 == another) = entries.find? fun entry => entry.1 == another := by
      rw [List.find?_filter]
      congr 1
      funext entry
      by_cases hentry : entry.1 = another <;> simp [hentry, hname]
    unfold setChild child?
    dsimp only
    rw [List.find?_cons, beq_false_of_ne hname.symm]
    dsimp only
    rw [hothers]
    exact h

/-- Where a plain file or nothing has been, an entry can be put without losing a folder. -/
lemma isFolder_put (hplace : tree.isFolder place = false) (entry : FileTree)
    (h : tree.isFolder other = true) : (tree.put place entry).isFolder other = true := by
  induction place generalizing tree other with
  | nil =>
    -- There are no folders in a plain file.
    have hroot : tree.isFolder [] = true := isFolder_of_append h
    rw [hplace] at hroot
    cases hroot
  | cons name place ih =>
    rw [put]
    cases other with
    | nil => exact isFolder_setChild ..
    | cons first rest =>
      obtain ⟨child, hchild, hrest⟩ := isFolder_cons.1 h
      by_cases hname : first = name
      · subst hname
        rw [Bool.eq_false_iff] at hplace
        refine isFolder_cons.2 ⟨_, child?_setChild_self .., ?_⟩
        rw [hchild, Option.getD_some]
        refine ih (Bool.eq_false_iff.2 fun hfolder => ?_) hrest
        exact hplace (isFolder_cons.2 ⟨child, hchild, hfolder⟩)
      · exact isFolder_cons.2 ⟨child, child?_setChild_of_ne hchild hname _, hrest⟩

/-- An entry that is put into a folder, but not over a folder, leaves all other files as they
are. -/
lemma content?_put (hfolder : tree.isFolder folder = true)
    (hplace : tree.isFolder (folder ++ [name]) = false) (hother : other ≠ folder ++ [name])
    (entry : FileTree) (h : tree.content? other = some content) :
    (tree.put (folder ++ [name]) entry).content? other = some content := by
  induction folder generalizing tree other with
  | nil =>
    cases other with
    | nil => exact absurd (hfolder.symm.trans (isFolder_eq_false_of_content? h)) nofun
    | cons first rest =>
      obtain ⟨child, hchild, hrest⟩ := content?_cons.1 h
      by_cases hname : first = name
      · subst hname
        cases rest with
        | nil => exact absurd rfl hother
        | cons second rest =>
          obtain ⟨grandchild, hgrandchild, -⟩ := content?_cons.1 hrest
          have hover : tree.isFolder [first] = true :=
            isFolder_cons.2 ⟨child, hchild, isFolder_of_child?_eq_some hgrandchild⟩
          exact absurd (hover.symm.trans hplace) nofun
      · exact content?_cons.2 ⟨child, child?_setChild_of_ne hchild hname _, hrest⟩
  | cons parent folder ih =>
    obtain ⟨sub, hsub, hsubfolder⟩ := isFolder_cons.1 hfolder
    cases other with
    | nil =>
      have hroot := isFolder_of_child?_eq_some hsub
      exact absurd (hroot.symm.trans (isFolder_eq_false_of_content? h)) nofun
    | cons first rest =>
      obtain ⟨child, hchild, hrest⟩ := content?_cons.1 h
      by_cases hname : first = parent
      · subst hname
        obtain rfl := Option.some.inj (hchild.symm.trans hsub)
        refine content?_cons.2 ⟨_, child?_setChild_self .., ?_⟩
        rw [hchild, Option.getD_some]
        refine ih hsubfolder (Bool.eq_false_iff.2 fun hover => ?_)
          (fun heq => hother (congrArg _ heq)) hrest
        have hover' : tree.isFolder (first :: (folder ++ [name])) = true :=
          isFolder_cons.2 ⟨child, hchild, hover⟩
        exact absurd (hover'.symm.trans hplace) nofun
      · exact content?_cons.2 ⟨child, child?_setChild_of_ne hchild hname _, hrest⟩

/-! ### What is kept -/

/-- Folders stay folders, and the files in the places `p` keep what they contain. -/
structure Keeps (p : List String → Prop) (tree tree' : FileTree) : Prop where
  folders : ∀ place, tree.isFolder place = true → tree'.isFolder place = true
  files : ∀ place content, p place → tree.content? place = some content →
    tree'.content? place = some content

lemma Keeps.refl (p : List String → Prop) (tree : FileTree) : tree.Keeps p tree :=
  ⟨fun _ => id, fun _ _ _ => id⟩

lemma Keeps.trans {p q : List String → Prop} (h : tree.Keeps p tree') (h' : tree'.Keeps q made) :
    tree.Keeps (fun place => p place ∧ q place) made where
  folders place hfolder := h'.folders place (h.folders place hfolder)
  files place content hplace hcontent :=
    h'.files place content hplace.2 (h.files place content hplace.1 hcontent)

lemma Keeps.mono {p q : List String → Prop} (h : tree.Keeps p tree')
    (hplaces : ∀ place content, q place → tree.content? place = some content → p place) :
    tree.Keeps q tree' :=
  ⟨h.folders, fun place content hplace hcontent =>
    h.files place content (hplaces place content hplace hcontent) hcontent⟩

lemma keeps_put (hfolder : tree.isFolder folder = true)
    (hplace : tree.isFolder (folder ++ [name]) = false) (entry : FileTree) :
    tree.Keeps (· ≠ folder ++ [name]) (tree.put (folder ++ [name]) entry) :=
  ⟨fun _ => isFolder_put hplace entry, fun _ _ hother => content?_put hfolder hplace hother entry⟩

/-- Creating folders changes no file. -/
lemma keeps_makeFoldersFrom? (hplace : tree.isFolder place = true)
    (h : tree.makeFoldersFrom? place parts = some made) : tree.Keeps (fun _ => True) made := by
  induction parts generalizing tree place with
  | nil =>
    obtain rfl := Option.some.inj h
    exact .refl _ tree
  | cons part parts ih =>
    rw [makeFoldersFrom?] at h
    split at h
    · exact ih (isFolder_dropLast hplace) h
    · split at h
      · dsimp only at h
        split at h
        · rename_i hentry
          exact ih (by rw [isFolder, hentry]) h
        · cases h
        · rename_i hentry
          split at h
          · have hnew : tree.isFolder (place ++ [part]) = false := by rw [isFolder, hentry]
            have hfolder : (tree.put (place ++ [part]) (.folder [])).isFolder (place ++ [part]) =
                true := by
              rw [isFolder, entryAt?_put]
            refine ((keeps_put hplace hnew (.folder [])).trans (ih hfolder h)).mono ?_
            rintro other content - hcontent
            refine ⟨?_, trivial⟩
            rintro rfl
            rw [content?, hentry] at hcontent
            cases hcontent
          · cases h
      · exact ih hplace h

lemma keeps_makeFolders? (hroot : tree.isFolder [] = true)
    (h : tree.makeFolders? path = some made) : tree.Keeps (fun _ => True) made := by
  rw [makeFolders?] at h
  split at h
  · exact keeps_makeFoldersFrom? hroot h
  · cases h

/-! ### Following a path -/

lemma isFolder_of_walk? (hplace : tree.isFolder place = true)
    (h : tree.walk? place parts = some folder) : tree.isFolder folder = true := by
  induction parts generalizing place with
  | nil => exact Option.some.inj h ▸ hplace
  | cons part parts ih =>
    rw [walk?] at h
    split at h
    · exact ih (isFolder_dropLast hplace) h
    · split at h
      · split at h
        · rename_i hnext
          exact ih hnext h
        · cases h
      · exact ih hplace h

/-- A path leads where it has led if folders stay folders. -/
lemma walk?_of_folders
    (hfolders : ∀ place, tree.isFolder place = true → tree'.isFolder place = true)
    (h : tree.walk? place parts = some folder) : tree'.walk? place parts = some folder := by
  induction parts generalizing place with
  | nil => exact h
  | cons part parts ih =>
    rw [walk?] at h ⊢
    split at h
    · rename_i hparent
      rw [if_pos hparent]
      exact ih h
    · rename_i hparent
      rw [if_neg hparent]
      split at h
      · rename_i hentry
        rw [if_pos hentry]
        split at h
        · rename_i hnext
          rw [if_pos (hfolders _ hnext)]
          exact ih h
        · cases h
      · rename_i hentry
        rw [if_neg hentry]
        exact ih h

lemma filePlace?_eq_some_iff : tree.filePlace? path = some place ↔
    Path.isUsable path = true ∧ ∃ name folder, (Path.parts path).getLast? = some name ∧
      tree.walk? [] (Path.parts path).dropLast = some folder ∧
      Path.isUsableName name = true ∧ tree.isFolder (folder ++ [name]) = false ∧
      folder ++ [name] = place := by
  rw [filePlace?]
  split
  · rename_i husable
    simp [husable, Option.bind_eq_some_iff, and_assoc]
  · rename_i husable
    simp [husable]

lemma write?_eq_some_iff : tree.write? path content = some written ↔
    ∃ place, tree.filePlace? path = some place ∧ tree.put place (.file content) = written := by
  simp [write?, Option.bind_eq_some_iff]

/-- A file that is put where a path leads is found on that path. -/
lemma filePlace?_put (h : tree.filePlace? path = some place) (content : String) :
    (tree.put place (.file content)).filePlace? path = some place := by
  obtain ⟨husable, name, folder, hname, hwalk, husableName, hplace, rfl⟩ :=
    filePlace?_eq_some_iff.1 h
  refine filePlace?_eq_some_iff.2 ⟨husable, name, folder, hname, ?_, husableName, ?_, rfl⟩
  · exact walk?_of_folders (fun _ => isFolder_put hplace _) hwalk
  · rw [isFolder, entryAt?_put]

/-- What was written to a file is read from it. -/
theorem read?_of_write? (h : tree.write? path content = some written) :
    written.read? path = some content := by
  obtain ⟨place, hplace, rfl⟩ := write?_eq_some_iff.1 h
  rw [read?, filePlace?_put hplace]
  simp [content?, entryAt?_put]

example : (write? (.folder []) "./a" "text").bind (read? · "./a") = some "text" := by cbv

/-- Writing a file changes no other file. -/
lemma keeps_write? (hroot : tree.isFolder [] = true) (h : tree.write? path content = some written) :
    tree.Keeps (fun place => written.filePlace? path ≠ some place) written := by
  obtain ⟨place, hplace, rfl⟩ := write?_eq_some_iff.1 h
  have hsame := filePlace?_put hplace content
  obtain ⟨-, name, folder, -, hwalk, -, hfree, rfl⟩ := filePlace?_eq_some_iff.1 hplace
  refine (keeps_put (isFolder_of_walk? hroot hwalk) hfree _).mono ?_
  rintro other content' hother - rfl
  exact hother hsame

end FileTree

namespace Metrics

/-! ### The report -/

/-- The standard workloads are composed within the usual step budget, in as many steps as the
generators need, so there is a report on them. -/
theorem exists_measurements : ∃ ms, measurements = .ok ms ∧
    ms.map (fun m => (m.name, m.steps, m.traceEvents)) =
      [("relay_chain_64", 65, 130), ("fan_in_64", 65, 130), ("relay_catalog_64", 67, 134)] ∧
    report = .ok (reportText ms) := by
  have hmeasured : ∀ {name steps value outcome}, steps ≤ 10000 →
      SettlesIn 10000 steps value outcome → ∃ m, measure name outcome = .ok m ∧
        (m.name, m.steps, m.traceEvents) = (name, steps, 2 * steps) := by
    intro name steps value outcome hbudget hsettles
    obtain ⟨s, rfl⟩ := hsettles.ok_iff.2 hbudget
    obtain ⟨-, hsteps, htrace, -⟩ := hsettles.of_ok s rfl
    exact ⟨_, rfl, by simp [hsteps, htrace]⟩
  obtain ⟨chain, hchain, hchainFacts⟩ :=
    @hmeasured "relay_chain_64" _ _ _ (by decide) (Workload.settlesIn_relayChain {} 64)
  obtain ⟨fan, hfan, hfanFacts⟩ :=
    @hmeasured "fan_in_64" _ _ _ (by decide) (Workload.settlesIn_fanIn {} 64)
  obtain ⟨composed, hcomposed, hcomposedFacts⟩ :=
    @hmeasured "relay_catalog_64" _ _ _ (by decide) (Workload.settlesIn_relayCatalog {} 64)
  have hall : measurements = .ok [chain, fan, composed] := by
    unfold measurements
    dsimp only
    rw [hchain, hfan, hcomposed]
    rfl
  refine ⟨_, hall, ?_, ?_⟩
  · simp only [List.map_cons, List.map_nil, hchainFacts, hfanFacts, hcomposedFacts]
  · rw [report, hall]
    rfl

/-! ### The command on a tree of files -/

/-- In the model an attempt changes the files, or it fails and nothing happens. -/
lemma run_attempt (words : String) (f : FileTree → Option FileTree) (world : World) :
    (attempt words (World.change f)).run.run world =
      match f world.files with
      | none => (.error (words ++ ": " ++ ""), world)
      | some files => (.ok (), { world with files := files }) := by
  unfold attempt World.change
  cases hchanged : f world.files <;> simp [hchanged, Except.mapError] <;> rfl

/-- What follows an attempt goes on with the changed files, and only if there are any. -/
lemma run_attempt_bind (words : String) (f : FileTree → Option FileTree)
    (next : Unit → ExceptT String (StateM World) Unit) (world : World) :
    (attempt words (World.change f) >>= next).run.run world =
      match f world.files with
      | none => (.error (words ++ ": " ++ ""), world)
      | some files => (next ()).run.run { world with files := files } := by
  rw [ExceptT.run_bind, StateT.run_bind, run_attempt]
  cases f world.files <;> rfl

/-- Saving creates the folders first, and then it writes the file. -/
lemma run_save (path text : String) (world : World) :
    (save path text : ExceptT String (StateM World) Unit).run.run world =
      match (Path.parent? path).elim (some world.files) world.files.makeFolders? with
      | none => (.error ("failed to create `" ++ (Path.parent? path).getD "" ++ "`" ++ ": " ++ ""),
          world)
      | some made =>
        match made.write? path text with
        | none => (.error ("failed to write `" ++ path ++ "`" ++ ": " ++ ""),
            { world with files := made })
        | some written => (.ok (), { world with files := written }) := by
  have hwrite := run_attempt ("failed to write `" ++ path ++ "`") fun files =>
    files.write? path text
  unfold save
  cases Path.parent? path with
  | none => exact hwrite world
  | some parent =>
    refine (run_attempt_bind _ (fun files => files.makeFolders? parent) _ world).trans ?_
    dsimp only [Option.elim_some]
    cases world.files.makeFolders? parent with
    | none => rfl
    | some made => exact hwrite { world with files := made }

/-- There is a report, so the command prints it or saves it. -/
lemma deliver_eq {text : String} (hreport : report = .ok text) (args : List String) :
    (deliver args : ExceptT String (StateM World) Unit) =
      match args with
      | [] => ExceptT.lift (Console.printLine text)
      | path :: _ => save path text := by
  unfold deliver
  rw [hreport]
  rfl

lemma run_nil {text : String} (hreport : report = .ok text) (files : FileTree) :
    run [] files = ⟨0, text ++ "\n", files⟩ := by
  rw [run, command, deliver_eq hreport]
  rfl

/-- To save the report the command creates folders and writes a file. It ends with the first of the
two that fails. -/
lemma run_cons {text : String} (hreport : report = .ok text) (path : String) (others : List String)
    (files : FileTree) :
    (Path.parent? path).elim (some files) files.makeFolders? = none ∧
        run (path :: others) files = ⟨1, "", files⟩ ∨
      ∃ made, (Path.parent? path).elim (some files) files.makeFolders? = some made ∧
        (made.write? path text = none ∧ run (path :: others) files = ⟨1, "", made⟩ ∨
          ∃ written, made.write? path text = some written ∧
            run (path :: others) files = ⟨0, "", written⟩) := by
  rw [run, command, deliver_eq hreport, StateT.run_bind, run_save]
  cases (Path.parent? path).elim (some files) files.makeFolders? with
  | none => exact .inl ⟨rfl, rfl⟩
  | some made =>
    refine .inr ⟨made, rfl, ?_⟩
    dsimp only
    cases made.write? path text with
    | none => exact .inl ⟨rfl, rfl⟩
    | some written => exact .inr ⟨written, rfl, rfl⟩

/-- If the command says that it has saved the report, then the report is read from the file that the
path names. -/
theorem run_saves_report {path : String} {others : List String} {files : FileTree}
    (h : (run (path :: others) files).exitCode = 0) : ∃ text, report = .ok text ∧
      (run (path :: others) files).printed = "" ∧
      (run (path :: others) files).files.read? path = some text := by
  obtain ⟨ms, -, -, hreport⟩ := exists_measurements
  have hfailed : ∀ {left}, run (path :: others) files ≠ ⟨1, "", left⟩ := fun hrun => by
    rw [hrun] at h
    exact absurd (show (1 : UInt32) = 0 from h) (by decide)
  obtain ⟨-, hrun⟩ | ⟨made, -, ⟨-, hrun⟩ | ⟨written, hwritten, hrun⟩⟩ :=
    run_cons hreport path others files
  · exact absurd hrun hfailed
  · exact absurd hrun hfailed
  · rw [hrun]
    exact ⟨_, hreport, rfl, FileTree.read?_of_write? hwritten⟩

/-- The command removes no folder, and it changes no file but the one that its first argument names,
be it successful or not. -/
theorem run_keeps_files (args : List String) {files : FileTree}
    (hroot : files.isFolder [] = true) :
    files.Keeps (fun place => ∀ path, args.head? = some path →
      (run args files).files.filePlace? path ≠ some place) (run args files).files := by
  obtain ⟨ms, -, -, hreport⟩ := exists_measurements
  cases args with
  | nil =>
    rw [run_nil hreport]
    exact .refl _ files
  | cons path others =>
    obtain ⟨-, hrun⟩ | ⟨made, hmade, hrun⟩ := run_cons hreport path others files
    · rw [hrun]
      exact .refl _ files
    · have hkeeps : files.Keeps (fun _ => True) made := by
        cases hparent : Path.parent? path with
        | none =>
          rw [hparent] at hmade
          obtain rfl := Option.some.inj hmade
          exact .refl _ files
        | some parent =>
          rw [hparent] at hmade
          exact FileTree.keeps_makeFolders? hroot hmade
      obtain ⟨-, hrun⟩ | ⟨written, hwritten, hrun⟩ := hrun
      · rw [hrun]
        exact hkeeps.mono fun _ _ _ _ => trivial
      · rw [hrun]
        have hwrites := FileTree.keeps_write? (hkeeps.folders [] hroot) hwritten
        exact (hkeeps.trans hwrites).mono fun place _ hplace _ => ⟨trivial, hplace path rfl⟩

end Metrics

end ContractComposition
