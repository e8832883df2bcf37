import Irata2.Assembler.Parser
import Mathlib.Data.Fintype.Card
import Mathlib.Data.Set.Finite.List
import Mathlib.Logic.Relation

/-!
# Include directives

The processor replaces each include directive by the statements of the file, processed in turn.  A
recursion without a bound on its depth is modelled by a number of levels to go: the processor
terminates when some number of levels is enough.
-/

namespace Irata2.Assembler

open Library

/-! ## Files -/

/-- A file system that does not change while the assembler runs: its canonical paths, and a finite
map from them to the contents of the files. -/
structure FileSystem (Path : Type) where
  /-- `std::filesystem::canonical` of a directory and a path, which fails without such a file -/
  canonical : Path → Text → Option Path
  parentPath : Path → Path
  string : Path → Text
  files : List (Path × Text)

inductive IncludeError (Path : Type)
  | filesystem (dir : Path) (path : Text)
  | openFile (path : Path)
  | assembler (error : AssemblerError)
  deriving DecidableEq

/-- The assembler error for a file that is already being included. -/
def circularInclude {Path : Type} (fs : FileSystem Path) (span : Span) (path : Path) :
    IncludeError Path :=
  .assembler ⟨span, "circular include detected: " ++ String.ofList (fs.string path)⟩

/-- The include path of an include directive. -/
def Statement.includePath? : Statement → Option (Text × Span)
  | .directive stmt => if stmt.type = .include then some (stmt.includePath, stmt.span) else none
  | _ => none

variable {Path : Type} [DecidableEq Path]

namespace FileSystem

def readFile (fs : FileSystem Path) (path : Path) : Option Text := fs.files.lookup path

/-- The program in a file. -/
def loadAndParse (fs : FileSystem Path) (path : Path) : Except (IncludeError Path) Program :=
  match fs.readFile path with
  | none => .error (.openFile path)
  | some source =>
      match lex source (fs.string path) >>= parse with
      | .error e => .error (.assembler e)
      | .ok program => .ok program

end FileSystem

/-! ## The processor -/

/-- The result of the processor with its include stack, or an exception; `none` while it is still
running. -/
abbrev Outcome (Path : Type) := Option (Except (IncludeError Path) (List Statement × List Path))

/-- The loop of `ProcessProgram`; `recurse` is the recursive call. -/
def processStatements (fs : FileSystem Path)
    (recurse : List Path → Path → List Statement → Outcome Path) (dir : Path) :
    List Path → List Statement → Outcome Path
  | stack, [] => some (.ok ([], stack))
  | stack, stmt :: rest =>
      match stmt.includePath? with
      | none =>
          match processStatements fs recurse dir stack rest with
          | some (.ok (statements, stack)) => some (.ok (stmt :: statements, stack))
          | outcome => outcome
      | some (includePath, span) =>
          match fs.canonical dir includePath with
          | none => some (.error (.filesystem dir includePath))
          | some path =>
              if path ∈ stack then some (.error (circularInclude fs span path))
              else
                let stack := path :: stack
                match fs.loadAndParse path with
                | .error e => some (.error e)
                | .ok included =>
                    -- the path leaves the stack before the included file is processed
                    let stack := stack.erase path
                    match recurse stack (fs.parentPath path) included.statements with
                    | some (.ok (processed, stack)) =>
                        match processStatements fs recurse dir stack rest with
                        | some (.ok (statements, stack)) =>
                            some (.ok (processed ++ statements, stack))
                        | outcome => outcome
                    | outcome => outcome

/-- `ProcessProgram`, down to a number of levels. -/
def processProgram (fs : FileSystem Path) :
    Nat → List Path → Path → List Statement → Outcome Path
  | 0, _, _, _ => none
  | n + 1, stack, dir, statements =>
      processStatements fs (processProgram fs n) dir stack statements

/-- `IncludeProcessor::Process` -/
def process (fs : FileSystem Path) (levels : Nat) (program : Program) (baseDir : Path) :
    Option (Except (IncludeError Path) Program) :=
  (processProgram fs levels [] baseDir program.statements).map fun outcome =>
    outcome.map fun result => { statements := result.1 }

/-! ## Include graphs -/

namespace FileSystem

variable (fs : FileSystem Path)

/-- A program in a directory includes a file. -/
def Includes (dir : Path) (statements : List Statement) (path : Path) : Prop :=
  ∃ stmt ∈ statements, ∃ includePath span, stmt.includePath? = some (includePath, span) ∧
    fs.canonical dir includePath = some path

/-- Every include directive names one of the files. -/
def Resolves (dir : Path) (statements : List Statement) : Prop :=
  ∀ stmt ∈ statements, ∀ includePath span, stmt.includePath? = some (includePath, span) →
    ∃ path ∈ fs.files.map Prod.fst, fs.canonical dir includePath = some path

/-- A file includes another. -/
def Edge (path path' : Path) : Prop :=
  ∃ program, fs.loadAndParse path = .ok program ∧
    fs.Includes (fs.parentPath path) program.statements path'

/-- Following includes from a file leads to one that is included by way of itself. -/
def ReachesCycle (path : Path) : Prop :=
  ∃ path', Relation.ReflTransGen fs.Edge path path' ∧ Relation.TransGen fs.Edge path' path'

/-- Every include directive is replaced by the expansion of its file, in order. -/
inductive Expands : Path → List Statement → List Statement → Prop
  | nil (dir : Path) : Expands dir [] []
  | statement {dir : Path} {stmt : Statement} {rest out : List Statement}
      (h : stmt.includePath? = none) (hrest : Expands dir rest out) :
      Expands dir (stmt :: rest) (stmt :: out)
  | include {dir path : Path} {stmt : Statement} {includePath : Text} {span : Span}
      {program : Program} {rest inner out : List Statement}
      (h : stmt.includePath? = some (includePath, span))
      (hpath : fs.canonical dir includePath = some path)
      (hload : fs.loadAndParse path = .ok program)
      (hinner : Expands (fs.parentPath path) program.statements inner)
      (hrest : Expands dir rest out) : Expands dir (stmt :: rest) (inner ++ out)

end FileSystem

/-- A root program with the files it is assembled from: they all parse, and include one another. -/
structure Sources (Path : Type) [DecidableEq Path] where
  fileSystem : FileSystem Path
  baseDir : Path
  root : Program
  resolves : fileSystem.Resolves baseDir root.statements
  complete : ∀ path ∈ fileSystem.files.map Prod.fst, ∃ program,
    fileSystem.loadAndParse path = .ok program ∧
      fileSystem.Resolves (fileSystem.parentPath path) program.statements

namespace Sources

variable (s : Sources Path)

/-- Following includes from the root reaches a file that is already being included. -/
def Circular : Prop :=
  ∃ path, s.fileSystem.Includes s.baseDir s.root.statements path ∧ s.fileSystem.ReachesCycle path

/-- The processor terminates: with the error for a circular include when there is one, and with
the expansion of the root otherwise. -/
def Correct : Prop :=
  (s.Circular → ∃ levels span path, process s.fileSystem levels s.root s.baseDir =
    some (.error (circularInclude s.fileSystem span path))) ∧
  (¬s.Circular → ∃ levels out,
    process s.fileSystem levels s.root s.baseDir = some (.ok { statements := out }) ∧
      s.fileSystem.Expands s.baseDir s.root.statements out)

/-! ### The include stack is always empty -/

/-- The statements before the first line that is still being processed. -/
theorem processStatements_cases {recurse : List Path → Path → List Statement → Outcome Path}
    (hrecurse : ∀ dir statements, s.fileSystem.Resolves dir statements →
      recurse [] dir statements = none ∨ ∃ out, recurse [] dir statements = some (.ok (out, [])) ∧
        s.fileSystem.Expands dir statements out)
    {dir : Path} {statements : List Statement} (hresolves : s.fileSystem.Resolves dir statements) :
    processStatements s.fileSystem recurse dir [] statements = none ∨
      ∃ out, processStatements s.fileSystem recurse dir [] statements = some (.ok (out, [])) ∧
        s.fileSystem.Expands dir statements out := by
  induction statements with
  | nil => exact .inr ⟨[], rfl, .nil dir⟩
  | cons stmt rest ih =>
      have htail := ih fun st hst => hresolves st (List.mem_cons_of_mem _ hst)
      unfold processStatements
      cases hinclude : stmt.includePath? with
      | none =>
          rcases htail with hnone | ⟨out, hout, hexpands⟩
          · left
            simp only [hnone]
          · right
            exact ⟨stmt :: out, by simp only [hout], .statement hinclude hexpands⟩
      | some p =>
          rcases p with ⟨includePath, span⟩
          rcases hresolves stmt List.mem_cons_self includePath span hinclude with
            ⟨path, hmem, hpath⟩
          rcases s.complete path hmem with ⟨program, hload, hprogram⟩
          simp only [hpath, hload, List.not_mem_nil, if_false, List.erase_cons_head]
          rcases hrecurse _ _ hprogram with hnone | ⟨inner, hinner, hexpandsInner⟩
          · left
            simp only [hnone]
          · rcases htail with hnone | ⟨out, hout, hexpands⟩
            · left
              simp only [hinner, hnone]
            · right
              refine ⟨inner ++ out, by simp only [hinner, hout], ?_⟩
              exact .include hinclude hpath hload hexpandsInner hexpands

theorem processProgram_cases (n : Nat) {dir : Path} {statements : List Statement}
    (hresolves : s.fileSystem.Resolves dir statements) :
    processProgram s.fileSystem n [] dir statements = none ∨
      ∃ out, processProgram s.fileSystem n [] dir statements = some (.ok (out, [])) ∧
        s.fileSystem.Expands dir statements out := by
  induction n generalizing dir statements with
  | zero => exact .inl rfl
  | succ n ih => exact s.processStatements_cases (fun _ _ h => ih h) hresolves

/-! ### Cycles -/

theorem reachesCycle_step {path : Path} (h : s.fileSystem.ReachesCycle path) :
    ∃ path', s.fileSystem.Edge path path' ∧ s.fileSystem.ReachesCycle path' := by
  rcases h with ⟨q, hreach, hcycle⟩
  rcases Relation.ReflTransGen.cases_head hreach with rfl | ⟨r, hedge, hrest⟩
  · -- the file is on the cycle itself
    rcases Relation.TransGen.head'_iff.mp hcycle with ⟨r, hedge, hrest⟩
    exact ⟨r, hedge, _, hrest, hcycle⟩
  · exact ⟨r, hedge, q, hrest, hcycle⟩

/-- The processor runs for ever on a program that includes a file with a cycle. -/
theorem processProgram_of_reachesCycle (n : Nat) {dir path : Path} {statements : List Statement}
    (hresolves : s.fileSystem.Resolves dir statements)
    (hincludes : s.fileSystem.Includes dir statements path)
    (hcycle : s.fileSystem.ReachesCycle path) :
    processProgram s.fileSystem n [] dir statements = none := by
  induction n generalizing dir path statements with
  | zero => rfl
  | succ n ih =>
      show processStatements s.fileSystem (processProgram s.fileSystem n) dir [] statements = none
      induction statements with
      | nil =>
          rcases hincludes with ⟨stmt, hstmt, -⟩
          cases hstmt
      | cons stmt rest ihRest =>
          have hresolvesRest : s.fileSystem.Resolves dir rest :=
            fun st hst => hresolves st (List.mem_cons_of_mem _ hst)
          rcases hincludes with ⟨st, hst, text, sp, htext, hcanonical⟩
          unfold processStatements
          rcases List.mem_cons.mp hst with rfl | hmem
          · -- the first statement includes the file
            rcases hresolves st List.mem_cons_self text sp htext with ⟨path', hfile, hpath'⟩
            cases hcanonical.symm.trans hpath'
            rcases s.complete path hfile with ⟨program, hload, hprogram⟩
            rcases s.reachesCycle_step hcycle with ⟨q, ⟨program', hload', hedge⟩, hq⟩
            cases hload.symm.trans hload'
            simp only [htext, hcanonical, hload, List.not_mem_nil, if_false,
              List.erase_cons_head, ih hprogram hedge hq]
          · have htail := ihRest hresolvesRest ⟨st, hmem, text, sp, htext, hcanonical⟩
            cases hinclude : stmt.includePath? with
            | none => simp only [htail]
            | some p =>
                rcases p with ⟨includePath, span⟩
                rcases hresolves stmt List.mem_cons_self includePath span hinclude with
                  ⟨path', hfile, hpath'⟩
                rcases s.complete path' hfile with ⟨program, hload, hprogram⟩
                simp only [hpath', hload, List.not_mem_nil, if_false, List.erase_cons_head]
                rcases s.processProgram_cases n hprogram with hnone | ⟨inner, hinner, -⟩
                · simp only [hnone]
                · simp only [hinner, htail]

/-! ### Graphs without a cycle -/

/-- Some number of levels is enough for a program, and so is any larger number. -/
def Terminates (dir : Path) (statements : List Statement) : Prop :=
  ∃ n, ∀ m, n ≤ m → processProgram s.fileSystem m [] dir statements ≠ none

/-- A program terminates when the files that it includes do. -/
theorem terminates_of_includes {dir : Path} {statements : List Statement}
    (hresolves : s.fileSystem.Resolves dir statements)
    (h : ∀ path program, s.fileSystem.Includes dir statements path →
      s.fileSystem.loadAndParse path = .ok program →
      s.Terminates (s.fileSystem.parentPath path) program.statements) :
    s.Terminates dir statements := by
  -- one level of includes is spent on the list itself
  suffices hs : ∃ n, ∀ m, n ≤ m →
      processStatements s.fileSystem (processProgram s.fileSystem m) dir [] statements ≠ none by
    rcases hs with ⟨n, hn⟩
    refine ⟨n + 1, fun m hm => ?_⟩
    obtain ⟨k, rfl⟩ := Nat.exists_eq_add_of_le hm
    rw [Nat.add_right_comm]
    exact hn _ (Nat.le_add_right n k)
  induction statements with
  | nil => exact ⟨0, fun m _ hnone => (by cases hnone)⟩
  | cons stmt rest ih =>
      have hincludes : ∀ path, s.fileSystem.Includes dir rest path →
          s.fileSystem.Includes dir (stmt :: rest) path := by
        rintro path ⟨st, hst, hrest⟩
        exact ⟨st, List.mem_cons_of_mem _ hst, hrest⟩
      have hresolvesRest : s.fileSystem.Resolves dir rest :=
        fun st hst => hresolves st (List.mem_cons_of_mem _ hst)
      rcases ih hresolvesRest fun path program hp => h path program (hincludes path hp) with
        ⟨n, hn⟩
      have hcases := fun m => s.processStatements_cases
        (fun _ _ h => s.processProgram_cases m h)
        hresolvesRest
      unfold processStatements
      cases hinclude : stmt.includePath? with
      | none =>
          refine ⟨n, fun m hm => ?_⟩
          rcases hcases m with hnone | ⟨out, hout, -⟩
          · exact absurd hnone (hn m hm)
          · simp only [hout]
            exact Option.some_ne_none _
      | some p =>
          rcases p with ⟨includePath, span⟩
          rcases hresolves stmt List.mem_cons_self includePath span hinclude with
            ⟨path, hfile, hpath⟩
          rcases s.complete path hfile with ⟨program, hload, hprogram⟩
          rcases h path program ⟨stmt, List.mem_cons_self, _, _, hinclude, hpath⟩ hload with
            ⟨k, hk⟩
          -- enough levels for the included file and for the rest
          refine ⟨max n k, fun m hm => ?_⟩
          simp only [hpath, hload, List.not_mem_nil, if_false, List.erase_cons_head]
          rcases s.processProgram_cases m hprogram with hnone | ⟨inner, hinner, -⟩
          · exact absurd hnone (hk m (by omega))
          · rcases hcases m with hnone | ⟨out, hout, -⟩
            · exact absurd hnone (hn m (by omega))
            · simp only [hinner, hout]
              exact Option.some_ne_none _

/-- The files from which no cycle can be reached. -/
def Acyclic : Type := { path : Path // path ∈ s.fileSystem.files.map Prod.fst ∧
  ¬s.fileSystem.ReachesCycle path }

/-- Among finitely many files without a cycle, no chain of includes goes on for ever. -/
theorem wellFounded_acyclic : WellFounded fun p q : s.Acyclic =>
    Relation.TransGen s.fileSystem.Edge q.val p.val := by
  have hfinite : Finite s.Acyclic := by
    apply Set.Finite.subset (List.finite_toSet (s.fileSystem.files.map Prod.fst))
    exact fun path h => h.1
  have htrans : IsTrans s.Acyclic fun p q => Relation.TransGen s.fileSystem.Edge q.val p.val :=
    ⟨fun _ _ _ h h' => h'.trans h⟩
  have hirrefl : Std.Irrefl fun p q : s.Acyclic =>
      Relation.TransGen s.fileSystem.Edge q.val p.val :=
    ⟨fun p h => p.property.2 ⟨p.val, .refl, h⟩⟩
  exact Finite.wellFounded_of_trans_of_irrefl _

theorem terminates_acyclic (p : s.Acyclic) {program : Program}
    (hload : s.fileSystem.loadAndParse p.val = .ok program) :
    s.Terminates (s.fileSystem.parentPath p.val) program.statements := by
  induction p using s.wellFounded_acyclic.induction generalizing program with
  | _ p ih =>
      rcases s.complete p.val p.property.1 with ⟨program', hload', hresolves⟩
      cases hload.symm.trans hload'
      apply s.terminates_of_includes hresolves
      intro path program' hincludes hload'
      have hedge : s.fileSystem.Edge p.val path := ⟨program, hload, hincludes⟩
      have hfile : path ∈ s.fileSystem.files.map Prod.fst := by
        rcases hincludes with ⟨stmt, hstmt, text, span, htext, hpath⟩
        rcases hresolves stmt hstmt text span htext with ⟨path', hmem, hpath'⟩
        cases hpath.symm.trans hpath'
        exact hmem
      have hacyclic : ¬s.fileSystem.ReachesCycle path := by
        rintro ⟨q, hreach, hcycle⟩
        exact p.property.2 ⟨q, .head hedge hreach, hcycle⟩
      exact ih ⟨path, hfile, hacyclic⟩ (.single hedge) hload'

theorem terminates_of_not_circular (h : ¬s.Circular) :
    s.Terminates s.baseDir s.root.statements := by
  apply s.terminates_of_includes s.resolves
  intro path program hincludes hload
  have hfile : path ∈ s.fileSystem.files.map Prod.fst := by
    rcases hincludes with ⟨stmt, hstmt, text, span, htext, hpath⟩
    rcases s.resolves stmt hstmt text span htext with ⟨path', hmem, hpath'⟩
    cases hpath.symm.trans hpath'
    exact hmem
  exact s.terminates_acyclic ⟨path, hfile, fun hcycle => h ⟨path, hincludes, hcycle⟩⟩ hload

/-! ### The processor is correct without cycles only -/

/-- The processor does what it should for exactly the sources without a circular include: on the
others it does not terminate. -/
theorem correct_iff : s.Correct ↔ ¬s.Circular := by
  constructor
  · rintro ⟨hcircular, -⟩ ⟨path, hincludes, hcycle⟩
    rcases hcircular ⟨path, hincludes, hcycle⟩ with ⟨n, span, p, hn⟩
    unfold process at hn
    rw [s.processProgram_of_reachesCycle n s.resolves hincludes hcycle] at hn
    cases hn
  · intro h
    refine ⟨fun hcircular => absurd hcircular h, fun _ => ?_⟩
    rcases s.terminates_of_not_circular h with ⟨n, hn⟩
    rcases s.processProgram_cases n s.resolves with hnone | ⟨out, hout, hexpands⟩
    · exact absurd hnone (hn n (Nat.le_refl n))
    · refine ⟨n, out, ?_, hexpands⟩
      unfold process
      rw [hout]
      rfl

/-- A file that includes itself. -/
def selfIncluding : FileSystem Text where
  canonical _ path := if path = "a.asm".toList then some path else none
  parentPath _ := "src".toList
  string path := path
  files := [("a.asm".toList, ".include \"a.asm\"".toList)]

def includeSelf (file : Text) (column : Nat) : Program :=
  { statements := [.directive { type := .include, includePath := "a.asm".toList,
                                span := ⟨file, 1, 1, column⟩ }] }

theorem loadAndParse_selfIncluding : selfIncluding.loadAndParse "a.asm".toList =
    .ok (includeSelf "a.asm".toList 8) := by
  decide +kernel

theorem resolves_includeSelf (dir file : Text) (column : Nat) :
    selfIncluding.Resolves dir (includeSelf file column).statements := by
  intro stmt hstmt includePath span h
  cases List.mem_singleton.mp hstmt
  cases h
  exact ⟨"a.asm".toList, List.mem_singleton.mpr rfl, rfl⟩

/-- A root program that includes a file which includes itself. -/
def selfIncludingSources : Sources Text where
  fileSystem := selfIncluding
  baseDir := "src".toList
  root := includeSelf "main.asm".toList 8
  resolves := resolves_includeSelf _ _ _
  complete := by
    intro path hpath
    cases List.mem_singleton.mp hpath
    exact ⟨_, loadAndParse_selfIncluding, resolves_includeSelf _ _ _⟩

/-- On a file that includes itself the processor does not throw: it goes on including. -/
theorem not_correct_selfIncluding : selfIncludingSources.Circular ∧
    ∀ levels, process selfIncludingSources.fileSystem levels selfIncludingSources.root
      selfIncludingSources.baseDir = none := by
  have hincludes : ∀ dir file column,
      selfIncluding.Includes dir (includeSelf file column).statements "a.asm".toList :=
    fun dir file column => ⟨_, List.mem_singleton.mpr rfl, _, _, rfl, rfl⟩
  have hcycle : selfIncluding.ReachesCycle "a.asm".toList :=
    ⟨_, .refl, .single ⟨_, loadAndParse_selfIncluding, hincludes _ _ _⟩⟩
  refine ⟨⟨_, hincludes _ _ _, hcycle⟩, fun levels => ?_⟩
  unfold process
  rw [selfIncludingSources.processProgram_of_reachesCycle levels selfIncludingSources.resolves
    (hincludes _ _ _) hcycle]
  rfl

end Sources

end Irata2.Assembler
