import BuildGraph.Proofs.Op.Checks

/-!
# What can be wrong with what is recorded

A call records an operation as it was asked for it, and some checks are left to the validation. What a call has seen to
already cannot go wrong then: that there is a program, that the first mount is the root, that an index has its input
(`Op.Prepared`). What remains are mistakes of the caller in paths and in names of variables, `Op.Mistake`. They are just
what makes the validation of such an operation fail, each with the reason that belongs to it.
-/

namespace BuildGraph.Op

/-- A source has a scheme, a process a program and an environment of keys and values, and the paths that were put
together from others are absolute. The root is mounted first. A path of a copy may also be empty. -/
inductive Prepared : Op → Prop
  | source {s : Source} (hscheme : hasScheme s.identifier.toList = true) : Prepared (.source s)
  | exec {e : Exec} {root : MountPoint} {mounts : List MountPoint} (hprogram : hasProgram e.process.args = true)
      (henv : ∀ entry ∈ e.process.env, '=' ∈ entry.toList) (hdir : Path.isAbsolute e.process.cwd.toList = true)
      (hmounts : e.mounts = root :: mounts) (hroot : root.dest = "/") (hwhole : root.selector = none)
      (hselectors : ∀ m ∈ mounts, ∀ path, m.selector = some path → Path.isAbsolute path.toList = true) :
      Prepared (.exec e)
  | copy {c : Copy} (hsrc : c.src = "" ∨ Path.isAbsolute c.src.toList = true)
      (hdest : c.dest = "" ∨ Path.isAbsolute c.dest.toList = true) : Prepared (.copy c)
  | merge {m : Merge} (hinputs : m.inputs ≠ []) : Prepared (.merge m)

/-- A mistake in an operation, and the reason that it gives. The mounts are those behind the root. -/
inductive Mistake : Op → InvalidOp → Prop
  | emptyTarget {e : Exec} {m : MountPoint} (hm : m ∈ e.mounts.drop 1) (hempty : m.dest = "") :
      Mistake (.exec e) .emptyPath
  | nulTarget {e : Exec} {m : MountPoint} (hm : m ∈ e.mounts.drop 1) (hnul : '\x00' ∈ m.dest.toList) :
      Mistake (.exec e) (.nulByte m.dest)
  | relativeTarget {e : Exec} {m : MountPoint} (hm : m ∈ e.mounts.drop 1) (hne : m.dest ≠ "")
      (hrelative : Path.isAbsolute m.dest.toList = false) : Mistake (.exec e) (.relativePath m.dest)
  | rootTarget {e : Exec} {m : MountPoint} (hm : m ∈ e.mounts.drop 1) (hroot : Path.normalize m.dest = "/") :
      Mistake (.exec e) (.duplicateMount m.dest)
  | sameTarget {e : Exec} {before after : List MountPoint} {m m' : MountPoint}
      (hmounts : e.mounts.drop 1 = before ++ m :: after) (hm' : m' ∈ before)
      (hsame : Path.normalize m'.dest = Path.normalize m.dest) : Mistake (.exec e) (.duplicateMount m.dest)
  | nulSelector {e : Exec} {m : MountPoint} {path : String} (hm : m ∈ e.mounts.drop 1)
      (hselector : m.selector = some path) (hnul : '\x00' ∈ path.toList) : Mistake (.exec e) (.nulByte path)
  | nulDir {e : Exec} (hnul : '\x00' ∈ e.process.cwd.toList) : Mistake (.exec e) (.nulByte e.process.cwd)
  | emptyKey {e : Exec} {entry : String} (hentry : entry ∈ e.process.env) (hkey : entry.toList.head? = some '=') :
      Mistake (.exec e) (.malformedEnv entry)
  | emptyPath {c : Copy} (hempty : c.src = "" ∨ c.dest = "") : Mistake (.copy c) .emptyPath
  | nulPath {c : Copy} {path : String} (hpath : path = c.src ∨ path = c.dest) (hnul : '\x00' ∈ path.toList) :
      Mistake (.copy c) (.nulByte path)

/-- What is wrong with a path: it is empty, holds the null character, or is relative. -/
theorem checkPath_cases {path : String} {reason : InvalidOp} (h : checkPath path = .error reason) :
    path = "" ∧ reason = .emptyPath ∨ '\x00' ∈ path.toList ∧ reason = .nulByte path ∨
      path ≠ "" ∧ Path.isAbsolute path.toList = false ∧ reason = .relativePath path := by
  rw [checkPath] at h
  by_cases hempty : path = ""
  · rw [if_pos hempty, Except.error.injEq] at h
    exact .inl ⟨hempty, h.symm⟩
  rw [if_neg hempty] at h
  by_cases hnul : '\x00' ∈ path.toList
  · rw [if_pos hnul, Except.error.injEq] at h
    exact .inr (.inl ⟨hnul, h.symm⟩)
  rw [if_neg hnul] at h
  by_cases habsolute : Path.isAbsolute path.toList = true
  · rw [if_pos habsolute] at h
    cases h
  · rw [if_neg habsolute, Except.error.injEq] at h
    exact .inr (.inr ⟨hempty, Bool.eq_false_iff.2 habsolute, h.symm⟩)

/-- An absolute path can only hold the null character. -/
theorem nul_of_checkPath {path : String} {reason : InvalidOp} (habsolute : Path.isAbsolute path.toList = true)
    (h : checkPath path = .error reason) : '\x00' ∈ path.toList ∧ reason = .nulByte path := by
  rcases checkPath_cases h with ⟨rfl, -⟩ | hnul | ⟨-, hrelative, -⟩
  · cases habsolute
  · exact hnul
  · rw [habsolute] at hrelative
    cases hrelative

/-- A path that is absolute, if it is not empty, cannot be relative. -/
theorem empty_or_nul_of_checkPath {path : String} {reason : InvalidOp}
    (hpath : path = "" ∨ Path.isAbsolute path.toList = true) (h : checkPath path = .error reason) :
    path = "" ∧ reason = .emptyPath ∨ '\x00' ∈ path.toList ∧ reason = .nulByte path := by
  rcases hpath with rfl | habsolute
  · exact .inl ⟨rfl, (Except.error.inj h).symm⟩
  · exact .inr (nul_of_checkPath habsolute h)

/-- A path that passes is absolute and does not hold the null character. -/
theorem of_checkPath_eq_ok {path : String} (h : checkPath path = .ok ()) :
    '\x00' ∉ path.toList ∧ Path.isAbsolute path.toList = true := by
  have habsolute : Path.isAbsolute path.toList = true := by
    by_contra hrelative
    rw [checkPath, if_neg hrelative] at h
    split at h
    · cases h
    · split at h <;> cases h
  exact ⟨(checkPath_eq_ok_iff habsolute).1 h, habsolute⟩

/-- An entry with a `=` has an empty key if anything is wrong with it. -/
theorem head_of_checkEntry {entry : String} {reason : InvalidOp} (hentry : '=' ∈ entry.toList)
    (h : checkEntry entry = .error reason) : entry.toList.head? = some '=' ∧ reason = .malformedEnv entry := by
  cases hcut : Text.cutFirst? '=' entry.toList with
  | none => exact absurd hentry (Text.cutFirst?_eq_none_iff.1 hcut)
  | some cut =>
      obtain ⟨before, after⟩ := cut
      obtain ⟨htext, -⟩ := Text.cutFirst?_eq_some hcut
      rw [checkEntry, hcut] at h
      cases before with
      | nil => exact ⟨by rw [htext]; rfl, (Except.error.inj h).symm⟩
      | cons c cs => cases h

theorem checkEntry_of_head {entry : String} (h : entry.toList.head? = some '=') : checkEntry entry ≠ .ok () := by
  obtain ⟨rest, htext⟩ := List.head?_eq_some_iff.1 h
  have hcut : Text.cutFirst? '=' entry.toList = some ([], rest) := by
    rw [htext, Text.cutFirst?, if_pos rfl]
  intro hok
  rw [checkEntry, hcut] at hok
  cases hok

/-- The mount that does not pass: it has no input, one of its paths does not pass, or its target has been used. -/
theorem checkMounts_cases {count : Nat} {seen : List String} {mounts : List MountPoint} {reason : InvalidOp}
    (h : checkMounts count seen mounts = .error reason) :
    ∃ before m after, mounts = before ++ m :: after ∧
      (checkInput count m.input = .error reason ∨ checkPath m.dest = .error reason ∨
        checkSelector m.selector = .error reason ∨
        (Path.normalize m.dest ∈ seen ∨ ∃ m' ∈ before, Path.normalize m'.dest = Path.normalize m.dest) ∧
          reason = .duplicateMount m.dest) := by
  induction mounts generalizing seen with
  | nil => cases h
  | cons m ms ih =>
      simp only [checkMounts, check_bind_eq_error_iff, refuse_eq_error_iff] at h
      rcases h with hinput | ⟨-, hdest | ⟨-, hselector | ⟨-, ⟨hseen, hreason⟩ | ⟨-, hms⟩⟩⟩⟩
      · exact ⟨[], m, ms, rfl, .inl hinput⟩
      · exact ⟨[], m, ms, rfl, .inr (.inl hdest)⟩
      · exact ⟨[], m, ms, rfl, .inr (.inr (.inl hselector))⟩
      · exact ⟨[], m, ms, rfl, .inr (.inr (.inr ⟨.inl hseen, hreason.symm⟩))⟩
      · obtain ⟨before, n, after, rfl, hn⟩ := ih hms
        refine ⟨m :: before, n, after, rfl, ?_⟩
        rcases hn with hinput | hdest | hselector | ⟨hused, hreason⟩
        · exact .inl hinput
        · exact .inr (.inl hdest)
        · exact .inr (.inr (.inl hselector))
        · refine .inr (.inr (.inr ⟨?_, hreason⟩))
          rcases hused with hseen | ⟨m', hm', hsame⟩
          · rcases List.mem_cons.1 hseen with hsame | hseen
            · exact .inr ⟨m, List.mem_cons_self, hsame.symm⟩
            · exact .inl hseen
          · exact .inr ⟨m', List.mem_cons_of_mem _ hm', hsame⟩

/-- The target of a mount behind the root is that of no mount in front of it. -/
theorem target_ne_of_checkMounts {count : Nat} {e : Exec} (hroot : checkRoot e.mounts = .ok ())
    (h : checkMounts count [] e.mounts = .ok ()) {before after : List MountPoint} {m : MountPoint}
    (hsplit : e.mounts.drop 1 = before ++ m :: after) :
    Path.normalize m.dest ≠ "/" ∧ ∀ m' ∈ before, Path.normalize m'.dest ≠ Path.normalize m.dest := by
  obtain ⟨-, hnodup⟩ := checkMounts_eq_ok_iff.1 h
  cases hmounts : e.mounts with
  | nil =>
      rw [hmounts] at hroot
      cases hroot
  | cons root mounts =>
      rw [hmounts] at hroot hsplit hnodup
      have hdest : root.dest = "/" := by
        by_contra hne
        rw [checkRoot, if_neg hne] at hroot
        cases hroot
      have hmounts : mounts = before ++ m :: after := hsplit
      rw [List.map_cons, hmounts, List.map_append, List.nodup_cons, List.nodup_append] at hnodup
      obtain ⟨hnew, -, -, hdisjoint⟩ := hnodup
      constructor
      · intro hnormal
        apply hnew
        rw [hdest, List.mem_append]
        exact .inr (List.mem_map.2 ⟨m, List.mem_cons_self, hnormal⟩)
      · intro m' hm'
        exact hdisjoint _ (List.mem_map_of_mem hm') _ (List.mem_map_of_mem List.mem_cons_self)

/-- No mistake passes. -/
theorem Mistake.validate_ne_ok {op : Op} {reason : InvalidOp} (h : op.Mistake reason) (count : Nat) :
    op.validate count ≠ .ok () := by
  intro hok
  cases op with
  | source | merge => cases h
  | copy c =>
      simp only [validate, validateCopy, check_bind_eq_ok_iff] at hok
      obtain ⟨-, -, hsrc, hdest⟩ := hok
      cases h with
      | emptyPath hempty =>
          rcases hempty with hempty | hempty
          · rw [hempty] at hsrc
            cases hsrc
          · rw [hempty] at hdest
            cases hdest
      | nulPath hpath hnul =>
          rcases hpath with rfl | rfl
          · exact (of_checkPath_eq_ok hsrc).1 hnul
          · exact (of_checkPath_eq_ok hdest).1 hnul
  | exec e =>
      obtain ⟨-, henv, hdir, hroot, hchecks⟩ := validateExec_eq_ok_iff.1 hok
      have hmount : ∀ m ∈ e.mounts.drop 1, checkPath m.dest = .ok () ∧ checkSelector m.selector = .ok () := by
        intro m hm
        obtain ⟨-, hdest, hselector, -⟩ := (checkMounts_eq_ok_iff.1 hchecks).1 m (List.mem_of_mem_drop hm)
        exact ⟨hdest, hselector⟩
      cases h with
      | emptyTarget hm hempty =>
          have hdest := (hmount _ hm).1
          rw [hempty] at hdest
          cases hdest
      | nulTarget hm hnul => exact (of_checkPath_eq_ok (hmount _ hm).1).1 hnul
      | relativeTarget hm hne hrelative =>
          rw [(of_checkPath_eq_ok (hmount _ hm).1).2] at hrelative
          cases hrelative
      | rootTarget hm hnormal =>
          obtain ⟨before, after, hsplit⟩ := List.append_of_mem hm
          exact (target_ne_of_checkMounts hroot hchecks hsplit).1 hnormal
      | sameTarget hmounts hm' hsame => exact (target_ne_of_checkMounts hroot hchecks hmounts).2 _ hm' hsame
      | nulSelector hm hselector hnul =>
          have hpath := (hmount _ hm).2
          rw [hselector] at hpath
          exact (of_checkPath_eq_ok hpath).1 hnul
      | nulDir hnul => exact (of_checkPath_eq_ok hdir).1 hnul
      | emptyKey hentry hkey => exact checkEntry_of_head hkey (henv _ hentry)

/-- What fails in the mounts of a recorded process is a mistake in one behind the root. -/
theorem mistake_of_checkMounts {e : Exec} {root : MountPoint} {mounts : List MountPoint} {count : Nat}
    {reason : InvalidOp} (hmounts : e.mounts = root :: mounts) (hroot : root.dest = "/") (hwhole : root.selector = none)
    (hselectors : ∀ m ∈ mounts, ∀ path, m.selector = some path → Path.isAbsolute path.toList = true)
    (hinputs : ∀ m ∈ e.mounts, checkInput count m.input ≠ .error reason)
    (h : checkMounts count [] e.mounts = .error reason) : Mistake (.exec e) reason := by
  obtain ⟨before, m, after, hsplit, hfails⟩ := checkMounts_cases h
  have hinput := hinputs m (hsplit ▸ List.mem_append_right before List.mem_cons_self)
  rw [hmounts] at hsplit
  cases before with
  | nil =>
      obtain ⟨rfl, rfl⟩ := List.cons.inj hsplit
      rcases hfails with hfails | hfails | hfails | ⟨hused, -⟩
      · exact absurd hfails hinput
      · rw [hroot] at hfails
        cases hfails
      · rw [hwhole] at hfails
        cases hfails
      · simp at hused
  | cons first before =>
      obtain ⟨rfl, rfl⟩ := List.cons.inj hsplit
      have hdrop : e.mounts.drop 1 = before ++ m :: after := by rw [hmounts]; rfl
      have hm : m ∈ e.mounts.drop 1 := hdrop ▸ List.mem_append_right before List.mem_cons_self
      rcases hfails with hfails | hfails | hfails | ⟨hused, rfl⟩
      · exact absurd hfails hinput
      · rcases checkPath_cases hfails with ⟨hempty, rfl⟩ | ⟨hnul, rfl⟩ | ⟨hne, hrelative, rfl⟩
        · exact .emptyTarget hm hempty
        · exact .nulTarget hm hnul
        · exact .relativeTarget hm hne hrelative
      · cases hselector : m.selector with
        | none =>
            rw [hselector] at hfails
            cases hfails
        | some path =>
            have habsolute := hselectors m (List.mem_append_right before List.mem_cons_self) path hselector
            rw [hselector] at hfails
            obtain ⟨hnul, rfl⟩ := nul_of_checkPath habsolute hfails
            exact .nulSelector hm hselector hnul
      · rcases hused with hseen | ⟨m', hm', hsame⟩
        · cases hseen
        · rcases List.mem_cons.1 hm' with rfl | hm'
          · rw [hroot] at hsame
            exact .rootTarget hm hsame.symm
          · exact .sameTarget hdrop hm' hsame

/-- What fails in an operation that was recorded with inputs for its indices is a mistake. -/
theorem Prepared.mistake {op : Op} {count : Nat} {reason : InvalidOp} (h : op.Prepared)
    (hinputs : ∀ index, some index ∈ op.references → index < count) (hfails : op.validate count = .error reason) :
    op.Mistake reason := by
  have hinput : ∀ input ∈ op.references, checkInput count input ≠ .error reason := by
    intro input hmem
    rw [checkInput_eq_ok_iff.2 fun index hindex => hinputs index (hindex ▸ hmem)]
    exact nofun
  cases h with
  | source hscheme =>
      rw [validate, if_pos hscheme] at hfails
      cases hfails
  | @exec e root mounts hprogram henv hdir hmounts hroot hwhole hselectors =>
      simp only [validate, validateExec, check_bind_eq_error_iff] at hfails
      -- The checks in their order: of the program, the environment, the directory, the root and the mounts.
      rcases hfails with hfails | ⟨-, hfails | ⟨-, hfails | ⟨-, hfails | ⟨-, hfails⟩⟩⟩⟩
      · rw [checkArgs_eq_ok_iff.2 hprogram] at hfails
        cases hfails
      · obtain ⟨before, entry, after, hsplit, -, hentry⟩ := forM_eq_error_iff.1 hfails
        have hmem : entry ∈ e.process.env := hsplit ▸ List.mem_append_right before List.mem_cons_self
        obtain ⟨hkey, rfl⟩ := head_of_checkEntry (henv entry hmem) hentry
        exact .emptyKey hmem hkey
      · obtain ⟨hnul, rfl⟩ := nul_of_checkPath hdir hfails
        exact .nulDir hnul
      · rw [hmounts, checkRoot, if_pos hroot] at hfails
        cases hfails
      · exact mistake_of_checkMounts hmounts hroot hwhole hselectors
          (fun m hm => hinput _ (List.mem_map_of_mem hm)) hfails
  | @copy c hsrc hdest =>
      simp only [validate, validateCopy, check_bind_eq_error_iff] at hfails
      rcases hfails with hfails | ⟨-, hfails | ⟨-, hfails | ⟨-, hfails⟩⟩⟩
      · exact absurd hfails (hinput _ List.mem_cons_self)
      · exact absurd hfails (hinput _ (List.mem_cons_of_mem _ List.mem_cons_self))
      · rcases empty_or_nul_of_checkPath hsrc hfails with ⟨hempty, rfl⟩ | ⟨hnul, rfl⟩
        · exact .emptyPath (.inl hempty)
        · exact .nulPath (.inl rfl) hnul
      · rcases empty_or_nul_of_checkPath hdest hfails with ⟨hempty, rfl⟩ | ⟨hnul, rfl⟩
        · exact .emptyPath (.inr hempty)
        · exact .nulPath (.inr rfl) hnul
  | @merge m hne =>
      simp only [validate, validateMerge, refuse_eq_error_iff] at hfails
      rcases hfails with ⟨hempty, -⟩ | ⟨-, hfails⟩
      · exact absurd hempty hne
      · obtain ⟨before, index, after, hsplit, -, hindex⟩ := forM_eq_error_iff.1 hfails
        have hmem : index ∈ m.inputs := hsplit ▸ List.mem_append_right before List.mem_cons_self
        exact absurd hindex (hinput (some index) (List.mem_map_of_mem hmem))

end BuildGraph.Op
