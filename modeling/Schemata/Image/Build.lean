import Schemata.Diagnostic.Notice
import Schemata.Image.Basic

/-!
# Building images

An image is built from the target schema files of a view that holds all they need. The targets are
visited in the order of their paths and the imports of each file in the order they are written; a
file is put into the image when all its imports are there. The files on the way are on a stack.
-/

namespace Schemata.Image

/-- The outcome of a build: an image, or what is wrong with the files. -/
inductive Outcome
  | built (image : Image)
  | failed (notices : List Notice)

/-- The type of notices about files that do not compile. -/
def compileType : String := "COMPILE"

def noticesOf (c : Compilation) : List Notice :=
  Notice.sortDistinct <| c.errors.map fun d =>
    let n := Notice.ofDiagnostic c.documents compileType d
    if n.message = "" then { n with message := "Compile error." } else n

/-! ### Requested files in order -/

/-- Puts each file into the slot of its path, which has to be free. -/
def fillSlots (positions : Table Nat) :
    List CompiledFile → List (Option CompiledFile) → Except Error (List (Option CompiledFile))
  | [], slots => .ok slots
  | f :: fs, slots =>
    match positions.find? f.descriptor.path with
    | none => .error (.fault s!"compiled unrequested file descriptor: {f.descriptor.path}")
    | some n =>
      match slots[n]? with
      | some (some _) => .error (.fault s!"duplicate file descriptor: {f.descriptor.path}")
      | _ => fillSlots positions fs (slots.set n (some f))

def slotFile (slot : Option CompiledFile) (path : String) : Except Error CompiledFile :=
  match slot.filter fun f => f.descriptor.path = path with
  | some f => .ok f
  | none => .error (.fault s!"no file descriptor for requested path {path}")

def inRequestedOrder (paths : List String) (files : List CompiledFile) :
    Except Error (List CompiledFile) := do
  if files.length ≠ paths.length then
    throw (.fault
      s!"expected file descriptors to be of length {paths.length} but was {files.length}")
  let slots ← fillSlots (.ofList paths.zipIdx) files (List.replicate paths.length none)
  (slots.zip paths).mapM fun (slot, path) => slotFile slot path

/-! ### Imports before files -/

/-- A file on its way into the image, with the imports that are left to visit. -/
abbrev Frame := CompiledFile × List String

/-- The visited paths, and the files that are in order, the latest first. -/
structure Emission where
  visited : List String
  order : List CompiledFile

/-- The steps that a file takes: one for each import and one to put it into the image. -/
def stepsOf (f : CompiledFile) : Nat := f.descriptor.dependencies.length + 1

/-- The steps of the files that are not visited yet. -/
def stepsAhead (visited : List String) : List (String × CompiledFile) → Nat
  | [] => 0
  | e :: es => (if visited.contains e.1 then 0 else stepsOf e.2) + stepsAhead visited es

theorem stepsAhead_cons_le (path : String) (visited : List String)
    (es : List (String × CompiledFile)) :
    stepsAhead (path :: visited) es ≤ stepsAhead visited es := by
  induction es with
  | nil => exact Nat.le_refl 0
  | cons e es ih =>
    simp only [stepsAhead, List.contains_cons]
    by_cases hpath : (e.1 == path) = true
    · rw [hpath, Bool.true_or, if_pos rfl]
      omega
    · rw [Bool.eq_false_iff.2 hpath, Bool.false_or]
      omega

theorem stepsAhead_visit {visited : List String} {es : List (String × CompiledFile)} {path : String}
    {f : CompiledFile} (hf : (path, f) ∈ es) (hnew : visited.contains path = false) :
    stepsAhead (path :: visited) es + stepsOf f ≤ stepsAhead visited es := by
  induction es with
  | nil => cases hf
  | cons e es ih =>
    have hle := stepsAhead_cons_le path visited es
    simp only [stepsAhead, List.contains_cons]
    rcases List.mem_cons.1 hf with rfl | hf
    · rw [beq_self_eq_true, Bool.true_or, if_pos rfl, hnew, if_neg Bool.false_ne_true]
      dsimp only
      omega
    · have hrest := ih hf
      by_cases hpath : (e.1 == path) = true
      · rw [hpath, Bool.true_or, if_pos rfl]
        omega
      · rw [Bool.eq_false_iff.2 hpath, Bool.false_or]
        omega

def stepsOn : List Frame → Nat
  | [] => 0
  | frame :: stack => frame.2.length + 1 + stepsOn stack

/-- Puts the files of a stack into order, each after those of its imports that were not visited
before. -/
def emit (all : Table CompiledFile) (stack : List Frame) (e : Emission) : Except Error Emission :=
  match stack with
  | [] => .ok e
  | (f, []) :: stack => emit all stack { e with order := f :: e.order }
  | (f, d :: ds) :: stack =>
    match _h : all.find? d with
    | none => .error (.fault s!"{f.descriptor.path} imports {d} which was not compiled")
    | some g =>
      if _hvisited : e.visited.contains d = true then emit all ((f, ds) :: stack) e
      else
        emit all ((g, g.descriptor.dependencies) :: (f, ds) :: stack)
          { e with visited := d :: e.visited }
termination_by stepsAhead e.visited all.entries + stepsOn stack
decreasing_by
  · simp only [stepsOn, List.length_nil]
    omega
  · simp only [stepsOn, List.length_cons]
    omega
  · have hsteps := stepsAhead_visit (Table.mem_entries_of_find? _h)
      (Bool.eq_false_iff.2 _hvisited)
    simp only [stepsOn, stepsOf, List.length_cons] at hsteps ⊢
    omega

/-- Visits files in turn. -/
def emitEach (all : Table CompiledFile) : List CompiledFile → Emission → Except Error Emission
  | [], e => .ok e
  | root :: roots, e =>
    match all.find? root.descriptor.path with
    | none => .error (.fault s!"requested file {root.descriptor.path} missing from compiled files")
    | some f =>
      if e.visited.contains root.descriptor.path then emitEach all roots e
      else do
        let visited := root.descriptor.path :: e.visited
        emitEach all roots (← emit all [(f, f.descriptor.dependencies)] { e with visited })

/-! ### Images -/

def unusedPositions (warnings : List Warning) (path : String) : List Nat :=
  warnings.filterMap fun
    | .unusedImport p position _ => if p = path then some position else none
    | .syntaxUnspecified _ => none

def fileOf (targets : List String) (warnings : List Warning) (f : CompiledFile) : ImageFile :=
  let path := f.descriptor.path
  { descriptor := f.descriptor, external := f.external, module := f.module, commit := f.commit
    isImport := !targets.contains path
    syntaxUnspecified := warnings.contains (.syntaxUnspecified path)
    unusedDependencies := unusedPositions warnings path }

/-- The image of a compilation without errors, for some targets. -/
def assemble (targets : List String) (requested : List CompiledFile) (c : Compilation) :
    Except Error Image := do
  let e ← emitEach c.all requested ⟨[], []⟩
  make (e.order.reverse.map (fileOf targets c.warnings))

/-- Builds the image of the target schema files of a view. -/
def build (w : World) (v : Module.View) (keepPlaces : Bool) : Except Error Outcome := do
  if !v.isSelfContained then
    throw (.fault
      "passed a module read bucket to build_image that was not expected to be self-contained")
  let targets ← (v.targets w).mapError .module
  let paths := (targets.filter fun f => f.kind = .schema).map FileInfo.path
  if paths.isEmpty then throw .noInputFiles
  let c ← compile w v paths keepPlaces
  if !c.errors.isEmpty then return .failed (noticesOf c)
  return .built (← assemble paths (← inRequestedOrder paths c.files) c)

end Schemata.Image
