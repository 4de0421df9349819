import JzHdl.Path.Security

/-! # Sandbox containment

A validated path is absolute, has only proper names as components and lies
under a stored root. A path under a configured root is rejected as outside only
when every such root is the file-system root or was dropped at configuration.
-/

namespace JzHdl

open Components

/-- A component that is neither empty nor `.` nor `..`. -/
def IsName (c : PathText) : Prop := IsPiece '/' c ∧ c ≠ dotText ∧ c ≠ dotDotText

/-- An absolute path made of proper names only. -/
def CanonicalPath (path : PathText) : Prop := ∃ cs, (∀ c ∈ cs, IsName c) ∧ path = render '/' cs

/-- What the platform promises about the paths it returns. -/
structure Platform.Sound (p : Platform) : Prop where

  realpath : ∀ path resolved, p.realpath path = some resolved → CanonicalPath resolved

  getcwd : ∀ cwd, p.getcwd = some cwd → isAbsolute cwd = true

/-- A path lies under an absolute root component by component. -/
def LiesUnder (root path : PathText) : Prop :=
  isAbsolute root = true ∧ components '/' root <+: components '/' path

/-! ## Normalisation -/

theorem isAbsolute_iff {path : PathText} : isAbsolute path = true ↔ ∃ t, path = '/' :: t := by
  cases path <;> simp [isAbsolute]

theorem isAbsolute_render (cs : List PathText) : isAbsolute (render '/' cs) = true := by
  rw [render]
  split
  · rfl
  · cases cs with
    | nil => contradiction
    | cons c rest => rfl

theorem CanonicalPath.isAbsolute {path : PathText} (h : CanonicalPath path) :
    isAbsolute path = true := by
  obtain ⟨cs, -, rfl⟩ := h
  exact isAbsolute_render cs

theorem pushComponent_names {kept : List PathText} {c : PathText} (hk : ∀ d ∈ kept, IsName d)
    (hc : IsPiece '/' c) : ∀ d ∈ pushComponent true kept c, IsName d := by
  intro d hd
  rw [pushComponent] at hd
  split at hd
  · exact hk d hd
  · rename_i hdot
    split at hd
    · split at hd
      · exact hk d (List.mem_of_mem_tail hd)
      · simp only [Bool.not_true, Bool.false_eq_true, false_and, if_false] at hd
        exact hk d hd
    · rename_i hdd
      split at hd
      · rcases List.mem_cons.mp hd with rfl | hd
        · exact ⟨hc, hdot, hdd⟩
        · exact hk d hd
      · exact hk d hd

theorem pushComponent_pieces {absolute : Bool} {kept : List PathText} {c : PathText}
    (hk : ∀ d ∈ kept, IsPiece '/' d) (hc : IsPiece '/' c) :
    ∀ d ∈ pushComponent absolute kept c, IsPiece '/' d := by
  intro d hd
  have hcons : d ∈ c :: kept → IsPiece '/' d := fun h => by
    rcases List.mem_cons.mp h with rfl | h
    · exact hc
    · exact hk d h
  rw [pushComponent] at hd
  split at hd
  · exact hk d hd
  · split at hd
    · split at hd
      · exact hk d (List.mem_of_mem_tail hd)
      · split at hd
        · exact hcons hd
        · exact hk d hd
    · split at hd
      · exact hcons hd
      · exact hk d hd

/-- Whatever one component of the loop preserves holds of the normalised components. -/
theorem normalizedComponents_induction {P : PathText → Prop} {path : PathText}
    (hstep : ∀ kept c, (∀ d ∈ kept, P d) → IsPiece '/' c →
      ∀ d ∈ pushComponent (isAbsolute path) kept c, P d) :
    ∀ d ∈ normalizedComponents path, P d := by
  have hfold : ∀ (cs kept : List PathText), (∀ c ∈ cs, IsPiece '/' c) → (∀ d ∈ kept, P d) →
      ∀ d ∈ cs.foldl (pushComponent (isAbsolute path)) kept, P d := by
    intro cs
    induction cs with
    | nil => exact fun kept _ hk => hk
    | cons c rest ih =>
      intro kept hcs hk
      exact ih _ (fun d hd => hcs d (List.mem_cons_of_mem _ hd))
        (hstep kept c hk (hcs c List.mem_cons_self))
  intro d hd
  rw [normalizedComponents, List.mem_reverse] at hd
  exact hfold _ [] (fun c hc => isPiece_of_mem_components hc) (by simp) d hd

/-- An absolute path is normalised to the names that are left. -/
theorem normalizePathTextual_absolute {path text : PathText} (ha : isAbsolute path = true)
    (h : normalizePathTextual path = some text) : CanonicalPath text := by
  refine ⟨normalizedComponents path, ?_, ?_⟩
  · refine normalizedComponents_induction fun kept c hk hc => ?_
    rw [ha]
    exact pushComponent_names hk hc
  · rw [normalizePathTextual] at h
    split at h
    · cases h
    · simp only [Option.some.injEq] at h
      rw [← h]
      by_cases hcs : normalizedComponents path = []
      · rw [hcs]; rfl
      · rw [if_neg (by simp), List.singleton_append, cons_intercalate hcs]

theorem normalizePathTextual_relative {path text : PathText} (ha : isAbsolute path = false)
    (h : normalizePathTextual path = some text) : text ≠ [] ∧ isAbsolute text = false := by
  have hpieces : ∀ d ∈ normalizedComponents path, IsPiece '/' d :=
    normalizedComponents_induction fun kept c hk hc => pushComponent_pieces hk hc
  rw [normalizePathTextual] at h
  split at h
  · cases h
  · simp only [ha, Bool.false_eq_true, if_false, List.nil_append, Option.some.injEq] at h
    rw [← h]
    cases hcs : normalizedComponents path with
    | nil => exact ⟨by decide, by decide⟩
    | cons c rest =>
      rw [hcs] at hpieces
      obtain ⟨hne, hmem⟩ := hpieces c List.mem_cons_self
      obtain ⟨x, c', rfl⟩ := List.exists_cons_of_ne_nil hne
      have hx : x ≠ '/' := fun hx => hmem (by simp [hx])
      have htext : ∃ t, ['/'].intercalate ((x :: c') :: rest) = x :: t := by
        cases rest with
        | nil => exact ⟨c', by simp⟩
        | cons d rest => exact ⟨_, by rw [List.intercalate_cons_cons]; rfl⟩
      obtain ⟨t, ht⟩ := htext
      rw [ht, if_neg (by simp)]
      exact ⟨by simp, by simpa [isAbsolute] using hx⟩

theorem isAbsolute_joinPath {dir path : PathText} (h : isAbsolute dir = true) :
    isAbsolute (joinPath dir path) = true := by
  obtain ⟨t, rfl⟩ := isAbsolute_iff.mp h
  rw [joinPath]
  split <;> rfl

/-- Resolved or normalised, the path checked against the roots is canonical. -/
theorem canonicalPath_canonical {p : Platform} (hp : p.Sound) {path canonical : PathText}
    (h : canonicalPath p path = some canonical) : CanonicalPath canonical := by
  rw [canonicalPath] at h
  split at h
  · rename_i resolved hr
    rw [← Option.some.inj h]
    exact hp.realpath _ _ hr
  · split at h
    · rename_i normalized hn
      rw [makeTextualPathAbsolute] at h
      split at h
      · cases h
      · split at h
        · rename_i ha
          rw [← Option.some.inj h]
          cases hpath : isAbsolute path with
          | true => exact normalizePathTextual_absolute hpath hn
          | false =>
            rw [(normalizePathTextual_relative hpath hn).2] at ha
            cases ha
        · split at h
          · cases h
          · rename_i cwd hcwd
            exact normalizePathTextual_absolute (isAbsolute_joinPath (hp.getcwd cwd hcwd)) h
    · cases h

/-- A stored root is canonical or a relative text. -/
theorem resolveRoot_cases {p : Platform} (hp : p.Sound) {dir root : PathText}
    (h : resolveRoot p dir = some root) :
    CanonicalPath root ∨ (root ≠ [] ∧ isAbsolute root = false) := by
  rw [resolveRoot] at h
  split at h
  · rename_i resolved hr
    rw [← Option.some.inj h]
    exact Or.inl (hp.realpath _ _ hr)
  · cases ha : isAbsolute dir with
    | true => exact Or.inl (normalizePathTextual_absolute ha h)
    | false => exact Or.inr (normalizePathTextual_relative ha h)

/-! ## Roots -/

theorem components_stripSlashes (root : PathText) :
    components '/' (stripSlashes root) = components '/' root := by
  have hrev : ∀ t : PathText,
      components '/' (stripSlashesRev t).reverse = components '/' t.reverse := by
    intro t
    induction t with
    | nil => rfl
    | cons x rest ih =>
      cases rest with
      | nil => rw [stripSlashesRev]; simp
      | cons c rest =>
        by_cases hx : x = '/'
        · rw [hx, stripSlashesRev, ih, List.reverse_cons, List.reverse_cons, components_append_singleton,
            List.reverse_cons]
        · rw [stripSlashesRev]
          intro c' rest' heq
          exact hx (List.cons.inj heq).1
  rw [stripSlashes, hrev, List.reverse_reverse]

theorem head?_stripSlashes (root : PathText) : (stripSlashes root).head? = root.head? := by
  have hrev : ∀ t : PathText, (stripSlashesRev t).getLast? = t.getLast? := by
    intro t
    induction t with
    | nil => rfl
    | cons x rest ih =>
      cases rest with
      | nil => rw [stripSlashesRev]; simp
      | cons c rest =>
        by_cases hx : x = '/'
        · rw [hx, stripSlashesRev, ih, List.getLast?_cons_cons]
        · rw [stripSlashesRev]
          intro c' rest' heq
          exact hx (List.cons.inj heq).1
  rw [stripSlashes, List.head?_reverse, hrev, List.getLast?_reverse]

/-- No trailing slash, nothing to strip. -/
theorem stripSlashes_of_getLast? {root : PathText} (h : root.getLast? ≠ some '/') :
    stripSlashes root = root := by
  rw [stripSlashes]
  rw [← List.head?_reverse] at h
  have : stripSlashesRev root.reverse = root.reverse := by
    generalize root.reverse = t at h
    cases t with
    | nil => rfl
    | cons x rest =>
      rw [stripSlashesRev]
      intro c' rest' heq
      exact h (by rw [(List.cons.inj heq).1]; rfl)
  rw [this, List.reverse_reverse]

theorem pathIsUnderRoot_iff {path root : PathText} : pathIsUnderRoot path root = true ↔
    ∃ rest, path = stripSlashes root ++ rest ∧ AtBoundary '/' rest := by
  rw [pathIsUnderRoot, Bool.and_eq_true, List.isPrefixOf_iff_prefix]
  constructor
  · rintro ⟨⟨rest, rfl⟩, h⟩
    refine ⟨rest, rfl, ?_⟩
    rw [List.drop_left] at h
    cases rest with
    | nil => exact Or.inl rfl
    | cons x t => exact Or.inr ⟨t, by rw [beq_iff_eq.mp h]⟩
  · rintro ⟨rest, rfl, h⟩
    refine ⟨List.prefix_append _ _, ?_⟩
    rw [List.drop_left]
    rcases h with rfl | ⟨t, rfl⟩ <;> rfl

theorem components_prefix_of_under {path root : PathText} (h : pathIsUnderRoot path root = true) :
    components '/' root <+: components '/' path := by
  obtain ⟨rest, rfl, hrest⟩ := pathIsUnderRoot_iff.mp h
  rw [← components_stripSlashes root]
  exact components_prefix hrest

/-- The root `/` contains only itself. -/
theorem pathIsUnderRoot_slash {path : PathText} (hpath : CanonicalPath path) :
    pathIsUnderRoot path ['/'] = true ↔ path = ['/'] := by
  obtain ⟨cs, hcs, rfl⟩ := hpath
  rw [pathIsUnderRoot_iff]
  constructor
  · rintro ⟨rest, heq, hrest⟩
    rcases hrest with rfl | ⟨t, rfl⟩
    · exact heq
    · rw [render] at heq ⊢
      split at heq
      · rename_i h; rw [if_pos h]
      · cases cs with
        | nil => contradiction
        | cons c cs =>
          obtain ⟨x, c', rfl⟩ := List.exists_cons_of_ne_nil (hcs c List.mem_cons_self).1.1
          have hx : x = '/' := by
            have := congrArg (fun t => t.tail.head?) heq
            simpa [stripSlashes, stripSlashesRev] using this
          exact absurd (by simp [hx]) (hcs (x :: c') List.mem_cons_self).1.2
  · intro h
    exact ⟨[], by rw [h]; rfl, Or.inl rfl⟩

/-- Between canonical paths the byte comparison is the comparison of components, except at `/`. -/
theorem pathIsUnderRoot_canonical {path root : PathText} (hpath : CanonicalPath path)
    (hroot : CanonicalPath root) : pathIsUnderRoot path root = true ↔
      components '/' root <+: components '/' path ∧ (root ≠ ['/'] ∨ path = ['/']) := by
  by_cases hslash : root = ['/']
  · rw [hslash, pathIsUnderRoot_slash hpath]
    simp [components_cons_sep]
  · simp only [hslash, ne_eq, not_false_iff, true_or, and_true]
    refine ⟨components_prefix_of_under, fun h => ?_⟩
    obtain ⟨cs, hcs, rfl⟩ := hpath
    obtain ⟨rs, hrs, rfl⟩ := hroot
    have hne : rs ≠ [] := fun hnil => hslash (by rw [hnil]; rfl)
    rw [components_render fun c hc => (hcs c hc).1, components_render fun c hc => (hrs c hc).1] at h
    obtain ⟨ts, rfl⟩ := h
    obtain ⟨rest, heq, hrest⟩ := @render_append _ '/' _ hne ts
    rw [pathIsUnderRoot_iff, stripSlashes_of_getLast? (getLast?_render hne fun c hc => (hrs c hc).1)]
    exact ⟨rest, heq, hrest⟩

theorem not_pathIsUnderRoot_relative {path root : PathText} (hpath : CanonicalPath path)
    (hne : root ≠ []) (hroot : isAbsolute root = false) : pathIsUnderRoot path root = false := by
  rw [Bool.eq_false_iff, ne_eq, pathIsUnderRoot_iff]
  rintro ⟨rest, heq, -⟩
  have hhead := head?_stripSlashes root
  obtain ⟨x, t, rfl⟩ := List.exists_cons_of_ne_nil hne
  obtain ⟨y, t', hstrip⟩ := List.exists_cons_of_ne_nil
    (l := stripSlashes (x :: t)) (by intro h; rw [h] at hhead; cases hhead)
  rw [hstrip] at hhead heq
  obtain ⟨u, hu⟩ := isAbsolute_iff.mp hpath.isAbsolute
  rw [heq] at hu
  simp only [List.head?_cons, Option.some.injEq] at hhead
  rw [← hhead, (List.cons.inj hu).1] at hroot
  simp [isAbsolute] at hroot

/-! ## Configured roots -/

/-- The roots as they were asked for, the default one first. -/
def configuredRoots (p : Platform) (projectFilename : PathText) (dirs : List PathText) :
    List PathText :=
  (resolveRoot p (pathDirname projectFilename)).toList ++ dirs.filterMap (resolveRoot p)

theorem mem_foldl_addRoot {p : Platform} {dirs roots : List PathText} {root : PathText}
    (h : root ∈ dirs.foldl (addRoot p) roots) :
    root ∈ roots ∨ root ∈ dirs.filterMap (resolveRoot p) := by
  induction dirs generalizing roots with
  | nil => exact Or.inl h
  | cons dir rest ih =>
    rcases ih h with h | h
    · rw [addRoot] at h
      split at h
      · exact Or.inl h
      · split at h
        · rename_i resolved hr
          rcases List.mem_append.mp h with h | h
          · exact Or.inl h
          · refine Or.inr (List.mem_filterMap.mpr ⟨dir, List.mem_cons_self, ?_⟩)
            rw [hr, List.mem_singleton.mp h]
        · exact Or.inl h
    · obtain ⟨d, hd, hr⟩ := List.mem_filterMap.mp h
      exact Or.inr (List.mem_filterMap.mpr ⟨d, List.mem_cons_of_mem _ hd, hr⟩)

theorem sandboxRoots_subset {p : Platform} {projectFilename : PathText} {dirs : List PathText}
    {allowAbsolute allowTraversal : Bool} {root : PathText}
    (h : root ∈ (PathSecurity.configure p projectFilename dirs allowAbsolute
      allowTraversal).sandboxRoots) : root ∈ configuredRoots p projectFilename dirs := by
  rcases List.mem_append.mp h with h | h
  · exact List.mem_append_left _ h
  · exact List.mem_append_right _ ((mem_foldl_addRoot h).resolve_left (by simp))

theorem configuredRoots_cases {p : Platform} (hp : p.Sound) {projectFilename : PathText}
    {dirs : List PathText} {root : PathText} (h : root ∈ configuredRoots p projectFilename dirs) :
    CanonicalPath root ∨ (root ≠ [] ∧ isAbsolute root = false) := by
  rcases List.mem_append.mp h with h | h
  · exact resolveRoot_cases hp (Option.mem_toList.mp h)
  · obtain ⟨d, -, hr⟩ := List.mem_filterMap.mp h
    exact resolveRoot_cases hp hr

/-! ## Traversal -/

/-- A scan that finds nothing leaves no `..` component; the first one counts at a start only. -/
theorem dotDot_not_mem_of_scan : ∀ (atStart : Bool) (path : PathText),
    hasTraversalFrom atStart path = false → dotDotText ∉ (path.splitOn '/').tail ∧
      (atStart = true → dotDotText ∉ path.splitOn '/')
  | _, [], _ => by simp [dotDotText]
  | atStart, c :: rest, h => by
      rw [hasTraversalFrom, Bool.or_eq_false_iff] at h
      obtain ⟨ih1, ih2⟩ := dotDot_not_mem_of_scan (c == '/') rest h.2
      rw [List.splitOn_cons_eq_if_modifyHead]
      by_cases hc : (c == '/') = true
      · rw [if_pos hc]
        have := ih2 hc
        exact ⟨this, fun _ hmem => this ((List.mem_cons.mp hmem).resolve_left (by decide))⟩
      · rw [if_neg hc]
        obtain ⟨d, ds, hs⟩ := List.exists_cons_of_ne_nil (List.splitOn_ne_nil '/' rest)
        rw [hs] at ih1 ⊢
        rw [List.modifyHead_cons]
        refine ⟨ih1, fun hstart hmem => ?_⟩
        rcases List.mem_cons.mp hmem with heq | hmem
        · have hd : d = ['.'] := (List.cons.inj heq).2.symm
          have hrest : rest = ['.'] ∨ ∃ t, rest = '.' :: '/' :: t := by
            have hj := @List.intercalate_splitOn _ rest _ _ '/'
            rw [hs, hd] at hj
            cases ds with
            | nil => exact Or.inl (by rw [← hj]; simp)
            | cons e es => exact Or.inr ⟨_, by rw [← hj, List.intercalate_cons_cons]; rfl⟩
          have hcdot : c = '.' := (List.cons.inj heq).1.symm
          have hscan := h.1
          rw [hstart, hcdot] at hscan
          rcases hrest with rfl | ⟨t, rfl⟩ <;> simp [endsDotDot] at hscan
        · exact ih1 hmem

theorem checkRawPath_none {g : PathSecurity} {rawPath : PathText}
    (h : checkRawPath g rawPath = none) (ha : g.allowAbsolute = false)
    (ht : g.allowTraversal = false) :
    isAbsolute rawPath = false ∧ dotDotText ∉ rawPath.splitOn '/' := by
  rw [checkRawPath, ha, ht] at h
  split at h
  · cases h
  · rename_i habs
    split at h
    · cases h
    · rename_i hscan
      refine ⟨by simpa using habs, (dotDot_not_mem_of_scan true rawPath ?_).2 rfl⟩
      simpa [pathHasTraversal] using hscan

/-! ## Containment -/

section

variable (p : Platform) (projectFilename : PathText) (dirs : List PathText)
  (allowAbsolute allowTraversal : Bool) (rawPath baseDir : PathText)

/-- What the sandbox promises about one validation. -/
def SandboxContainment : Prop :=
  let g := PathSecurity.configure p projectFilename dirs allowAbsolute allowTraversal
  (∀ path, jzPathValidate p g rawPath baseDir = .accepted path →
    CanonicalPath path ∧ (∃ root ∈ g.sandboxRoots, LiesUnder root path) ∧
      (allowAbsolute = false → allowTraversal = false →
        isAbsolute rawPath = false ∧ dotDotText ∉ rawPath.splitOn '/')) ∧
    (jzPathValidate p g rawPath baseDir = .rejected (some .pathOutsideSandbox) →
      ∀ path, canonicalPath p (fullPath rawPath baseDir) = some path →
        ∀ root ∈ configuredRoots p projectFilename dirs, ¬ LiesUnder root path)

/-- A path that reaches the root check under some configured root lies under a stored root that
is not `/`, is `/` itself under the stored root `/`, or is reported as an escaping link. -/
def RootsSuffice : Prop :=
  let g := PathSecurity.configure p projectFilename dirs allowAbsolute allowTraversal
  rawPath ≠ [] → checkRawPath g rawPath = none →
    ∀ path, canonicalPath p (fullPath rawPath baseDir) = some path →
      (∃ root ∈ configuredRoots p projectFilename dirs, LiesUnder root path) →
        (∃ root ∈ g.sandboxRoots, LiesUnder root path ∧ (root ≠ ['/'] ∨ path = ['/'])) ∨
          isSymlinkEscape p rawPath baseDir = true

theorem any_under_iff {p projectFilename dirs allowAbsolute allowTraversal} (hp : p.Sound)
    {path : PathText} (hpath : CanonicalPath path) :
    (PathSecurity.configure p projectFilename dirs allowAbsolute
      allowTraversal).sandboxRoots.any (pathIsUnderRoot path) = true ↔
    ∃ root ∈ (PathSecurity.configure p projectFilename dirs allowAbsolute
      allowTraversal).sandboxRoots, LiesUnder root path ∧ (root ≠ ['/'] ∨ path = ['/']) := by
  rw [List.any_eq_true]
  refine exists_congr fun root => and_congr_right fun hroot => ?_
  rcases configuredRoots_cases hp (sandboxRoots_subset hroot) with hc | ⟨hne, hrel⟩
  · rw [pathIsUnderRoot_canonical hpath hc, LiesUnder, hc.isAbsolute, and_iff_right rfl]
  · rw [not_pathIsUnderRoot_relative hpath hne hrel, LiesUnder, hrel]
    simp

/-- Acceptance is always contained; rejection as outside is right just when the stored roots
suffice. -/
theorem sandboxContainment_iff (hp : p.Sound) :
    SandboxContainment p projectFilename dirs allowAbsolute allowTraversal rawPath baseDir ↔
      RootsSuffice p projectFilename dirs allowAbsolute allowTraversal rawPath baseDir := by
  rw [SandboxContainment, RootsSuffice]
  generalize hg : PathSecurity.configure p projectFilename dirs allowAbsolute allowTraversal = g
  have hany : ∀ {path}, CanonicalPath path → (g.sandboxRoots.any (pathIsUnderRoot path) = true ↔
      ∃ root ∈ g.sandboxRoots, LiesUnder root path ∧ (root ≠ ['/'] ∨ path = ['/'])) := by
    rw [← hg]
    exact fun hpath => any_under_iff hp hpath
  by_cases hraw : rawPath = []
  · simp [jzPathValidate, hraw]
  cases hcheck : checkRawPath g rawPath with
  | some diag =>
    have hne : diag ≠ .pathOutsideSandbox := by
      rintro rfl
      rw [checkRawPath] at hcheck
      split at hcheck
      · simp at hcheck
      · split at hcheck <;> simp at hcheck
    simp [jzPathValidate, hraw, hcheck, hne]
  | none =>
    cases hcanon : canonicalPath p (fullPath rawPath baseDir) with
    | none => simp [jzPathValidate, hraw, hcheck, hcanon]
    | some path =>
      have hpath := canonicalPath_canonical hp hcanon
      have hflags : allowAbsolute = false → allowTraversal = false →
          isAbsolute rawPath = false ∧ dotDotText ∉ rawPath.splitOn '/' := by
        intro ha ht
        exact checkRawPath_none hcheck (by rw [← hg]; exact ha) (by rw [← hg]; exact ht)
      have hin := hany hpath
      simp only [jzPathValidate, if_neg hraw, hcheck, hcanon]
      by_cases hu : g.sandboxRoots.any (pathIsUnderRoot path) = true
      · obtain ⟨root, hroot, hunder, hslash⟩ := hin.mp hu
        rw [if_pos hu]
        refine iff_of_true ⟨?_, by simp⟩ ?_
        · rintro _ heq
          rw [← PathResult.accepted.inj heq]
          exact ⟨hpath, ⟨root, hroot, hunder⟩, hflags⟩
        · rintro - - _ heq -
          rw [← Option.some.inj heq]
          exact Or.inl ⟨root, hroot, hunder, hslash⟩
      · have hout := mt hin.mpr hu
        rw [if_neg hu]
        by_cases hlink : isSymlinkEscape p rawPath baseDir = true
        · simp [hlink]
        · rw [if_neg hlink]
          constructor
          · rintro ⟨-, h⟩ - - path' heq ⟨root, hroot, hunder⟩
            exact absurd hunder (h rfl path' heq root hroot)
          · intro h
            refine ⟨by simp, ?_⟩
            rintro - path' heq root hroot hunder
            rcases h hraw trivial path' heq ⟨root, hroot, hunder⟩ with h | h
            · rw [← Option.some.inj heq] at h
              exact hout h
            · exact hlink h

end

namespace SandboxExample

/-- A platform that resolves nothing, with `/` as the current directory. -/
def platform : Platform := ⟨fun _ => none, some ['/'], fun _ => false⟩

theorem platform_sound : platform.Sound :=
  ⟨fun _ _ h => (by cases h), fun _ h => (by cases h; rfl)⟩

end SandboxExample

open SandboxExample in
/-- A project in `/p` and the file `f` next to it. -/
theorem sandboxContainment_iff_plain :
    SandboxContainment platform ['/', 'p', '/', 'a'] [] false false ['f'] ['/', 'p'] := by
  refine (sandboxContainment_iff platform ['/', 'p', '/', 'a'] [] false false ['f'] ['/', 'p']
    platform_sound).mpr ?_
  rintro - - path hpath -
  refine Or.inl ⟨['/', 'p'], by decide +kernel, ?_⟩
  have heq : path = ['/', 'p', '/', 'f'] :=
    (Option.some.inj (hpath.symm.trans (by decide +kernel)))
  rw [heq, LiesUnder]
  decide +kernel

open SandboxExample in
/-- The project lies in `/p`, the root `/` is added, and `/a/f` is still outside. -/
theorem sandboxContainment_slash :
    ¬ SandboxContainment platform ['/', 'p', '/', 'a'] [['/']] false false ['f'] ['/', 'a'] := by
  rintro ⟨-, h⟩
  refine h (by decide +kernel) ['/', 'a', '/', 'f'] (by decide +kernel) ['/'] (by decide +kernel) ?_
  rw [LiesUnder]
  decide +kernel

end JzHdl
