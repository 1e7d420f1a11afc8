-- The compiler wrapper (`lscov-clang.cc`): it finds its own path, the compiler that
-- `wrap-clang` or `wrap-clang++` links to, and runs it with the pass and the runtime.
-- The laws say when it runs the compiler that it was called for.
import LogicStateCoverage.Text
import Mathlib.Data.List.Infix

namespace lscov.wrapper

open text

abbrev Str := List Char

/-! ## The program -/

/-- What the program sees of the system: its links, and what `which` finds. -/
structure System where
  self_exe : Option Str              -- the link `/proc/self/exe`
  readlink : Str → Option Str
  which : Str → Bool

/-- A process that goes on as another program, with a vector of arguments up to its `NULL`.
`undefined` is a read past the end of a buffer. -/
inductive Outcome where
  | execvp (params : List (Option Str))
  | aborted
  | undefined
  deriving DecidableEq

/-- `readlink(2)` into a buffer: at most `size` bytes, and no NUL after them. -/
def fill (buf link : Str) (size : Nat) : Str := link.take size ++ buf.drop (link.take size).length

/-- `exepath.substr(_name_pos + 1)` -/
def exename (exepath : Str) : Str := exepath.drop (rfind '/' exepath + 1).toNat

/-- `exepath.substr(0, _name_pos)`, where -1 becomes `npos`. -/
def basepath (exepath : Str) : Str :=
  if rfind '/' exepath < 0 then exepath else exepath.take (rfind '/' exepath).toNat

def wrap_exepath (exepath : Str) : Str :=
  if (exename exepath).length ≥ 2 ∧
      (exename exepath).drop ((exename exepath).length - 2) = "++".toList then
    basepath exepath ++ "/wrap-clang++".toList
  else basepath exepath ++ "/wrap-clang".toList

/-- The vector that `main` fills in, with its `NULL`. -/
def cc_params (real_exepath basepath : Str) (args : List Str) : List (Option Str) :=
  let pass_plugin := "-fpass-plugin=".toList ++ (basepath ++ "/libLSCovPass.so".toList)
  let rt_obj := basepath ++ "/libLSCovRT.a".toList
  (real_exepath :: args ++ ["-Xclang".toList, pass_plugin, rt_obj, "-lpthread".toList]).map some ++
    [none]

/-- `main` from the point on where it has its own path. `_buf` starts as zeros. -/
def wrap (sys : System) (exepath : Str) (args : List Str) : Outcome :=
  match sys.readlink (wrap_exepath exepath) with
  | none => .aborted
  | some link =>
    match c_string (fill (List.replicate 1024 NUL) link 1023) with
    | none => .undefined
    | some real_exepath =>
      if sys.which real_exepath then .execvp (cc_params real_exepath (basepath exepath) args)
      else .aborted

/-- The 512 bytes of `_exepath` on entry. Nothing sets them. -/
abbrev Stack := {buf : Str // buf.length = 512}

def main (sys : System) (args : List Str) (stack : Stack) : Outcome :=
  match sys.self_exe with
  | none => .aborted
  | some self_exe =>
    match c_string (fill stack.val self_exe 511) with
    | none => .undefined
    | some exepath => wrap sys exepath args

/-! ## An install directory -/

/-- The two names that the wrapper is called by. -/
inductive Tool where
  | clang
  | clangxx
  deriving DecidableEq

/-- A target of a wrap link: a path that fits `_buf`, of a compiler that is there. -/
structure Compiler (which : Str → Bool) where
  path : Str
  nul : NUL ∉ path
  short : path.length < 1023
  found : which path = true

/-- What the build leaves in its directory: the program, its second name, and the wrap
links. -/
structure Install where
  dir : Str
  nul : NUL ∉ dir
  short : (dir ++ "/lscov-clang".toList).length < 511
  readlink : Str → Option Str
  which : Str → Bool
  cc : Compiler which
  cxx : Compiler which
  program : readlink (dir ++ "/lscov-clang".toList) = none
  second_name : readlink (dir ++ "/lscov-clang++".toList) = some (dir ++ "/lscov-clang".toList)
  wrap_clang : readlink (dir ++ "/wrap-clang".toList) = some cc.path
  wrap_clangxx : readlink (dir ++ "/wrap-clang++".toList) = some cxx.path

namespace Install

/-- The path that the tool is called by. -/
def called (i : Install) : Tool → Str
  | .clang => i.dir ++ "/lscov-clang".toList
  | .clangxx => i.dir ++ "/lscov-clang++".toList

/-- The system of a process that was called as `tool`. Its `/proc/self/exe` is resolved. -/
def system (i : Install) (tool : Tool) : System where
  self_exe := some ((i.readlink (i.called tool)).getD (i.called tool))
  readlink := i.readlink
  which := i.which

/-- The compiler that the tool stands for. -/
def compiler (i : Install) : Tool → Compiler i.which
  | .clang => i.cc
  | .clangxx => i.cxx

/-- The wrapper runs the compiler that it was called for, on its own arguments, with the
pass and the runtime of the directory. -/
def RunsTheCompiler (i : Install) (tool : Tool) (args : List Str) (stack : Stack) : Prop :=
  main (i.system tool) args stack =
    .execvp (some (i.compiler tool).path :: args.map some ++
      [some "-Xclang".toList,
        some ("-fpass-plugin=".toList ++ i.dir ++ "/libLSCovPass.so".toList),
        some (i.dir ++ "/libLSCovRT.a".toList), some "-lpthread".toList, none])

/-- The bytes of `_exepath` that `readlink` leaves as they were. -/
def stale (i : Install) (stack : Stack) : Str :=
  stack.val.drop (i.dir ++ "/lscov-clang".toList).length

end Install

/-! ## The own path -/

theorem cc_params_eq (real_exepath dir : Str) (args : List Str) :
    cc_params real_exepath dir args =
      some real_exepath :: args.map some ++
        [some "-Xclang".toList, some ("-fpass-plugin=".toList ++ dir ++ "/libLSCovPass.so".toList),
          some (dir ++ "/libLSCovRT.a".toList), some "-lpthread".toList, none] := by
  simp [cc_params]

theorem cc_params_inj {r r' d d' : Str} {args : List Str} :
    cc_params r d args = cc_params r' d' args ↔ r = r' ∧ d = d' := by
  simp only [cc_params_eq]
  simp

variable {dir t : Str}

theorem slash_notMem_name (ht : '/' ∉ t) : '/' ∉ "lscov-clang".toList ++ t := by
  rw [List.mem_append]
  rintro (h | h)
  · revert h
    decide
  · exact ht h

theorem rfind_exepath (ht : '/' ∉ t) :
    rfind '/' (dir ++ "/lscov-clang".toList ++ t) = dir.length := by
  rw [List.append_assoc]
  exact rfind_append dir (slash_notMem_name ht)

theorem exename_eq (ht : '/' ∉ t) :
    exename (dir ++ "/lscov-clang".toList ++ t) = "lscov-clang".toList ++ t := by
  have hsplit : dir ++ "/lscov-clang".toList ++ t =
      dir ++ ['/'] ++ ("lscov-clang".toList ++ t) := by
    simp
  unfold exename
  rw [rfind_exepath ht, hsplit]
  exact List.drop_left' (by simp)

theorem basepath_eq (ht : '/' ∉ t) : basepath (dir ++ "/lscov-clang".toList ++ t) = dir := by
  unfold basepath
  rw [rfind_exepath ht, if_neg (by omega), List.append_assoc, Int.toNat_natCast, List.take_left]

/-- A slash behind the path takes the place of the one before the name. -/
theorem basepath_ne (ht : '/' ∈ t) : basepath (dir ++ "/lscov-clang".toList ++ t) ≠ dir := by
  obtain ⟨b, a, hab, hb⟩ := List.eq_append_cons_of_mem (List.mem_reverse.mpr ht)
  have hlast : t = a.reverse ++ '/' :: b.reverse := by
    rw [← List.reverse_reverse t, hab]
    simp
  intro h
  have hlen := congrArg List.length h
  unfold basepath at hlen
  rw [hlast, ← List.append_assoc, rfind_append _ (by simpa using hb), if_neg (by omega),
    Int.toNat_natCast, List.take_left] at hlen
  simp at hlen

/-- The name ends in `++` just when what is behind the path does. -/
theorem suffix_name_iff : "++".toList <:+ "lscov-clang".toList ++ t ↔ "++".toList <:+ t := by
  constructor
  · intro h
    rw [← List.reverse_prefix, List.reverse_append] at h
    rw [← List.reverse_prefix]
    match t.reverse, h with
    | [], h => exact absurd h (by decide)
    | [c], h =>
      simp at h
    | c :: d :: r, h =>
      simp at h ⊢
      exact h
  · intro h
    exact h.trans (List.suffix_append _ _)

/-- The comparison of the last two bytes. -/
theorem ends_iff (s : Str) :
    (s.length ≥ 2 ∧ s.drop (s.length - 2) = "++".toList) ↔ "++".toList <:+ s := by
  rw [List.suffix_iff_eq_drop, eq_comm (a := "++".toList)]
  refine ⟨fun h => h.2, fun h => ⟨?_, h⟩⟩
  have hlen := congrArg List.length h
  simp at hlen
  omega

theorem wrap_exepath_eq (ht : '/' ∉ t) :
    wrap_exepath (dir ++ "/lscov-clang".toList ++ t) =
      dir ++ if "++".toList <:+ t then "/wrap-clang++".toList else "/wrap-clang".toList := by
  simp only [wrap_exepath, ends_iff, exename_eq ht, suffix_name_iff, basepath_eq ht]
  split <;> rfl

/-! ## The whole program -/

theorem fill_eq {buf link : Str} {size : Nat} (h : link.length ≤ size) :
    fill buf link size = link ++ buf.drop link.length := by
  rw [fill, List.take_of_length_le h]

namespace Install

variable (i : Install) (tool : Tool) (args : List Str) (stack : Stack)

/-- Both names resolve to the program. -/
theorem self_exe_eq : (i.system tool).self_exe = some (i.dir ++ "/lscov-clang".toList) := by
  cases tool with
  | clang => simp only [system, called, i.program, Option.getD_none]
  | clangxx => simp only [system, called, i.second_name, Option.getD_some]

theorem nul_notMem_path : NUL ∉ i.dir ++ "/lscov-clang".toList := by
  rw [List.mem_append]
  rintro (h | h)
  · exact i.nul h
  · revert h
    decide

/-- The path is read together with the stale bytes behind it. -/
theorem main_eq : main (i.system tool) args stack =
    match c_string (i.stale stack) with
    | none => .undefined
    | some t => wrap (i.system tool) (i.dir ++ "/lscov-clang".toList ++ t) args := by
  unfold main
  rw [self_exe_eq]
  simp only
  rw [fill_eq (by have := i.short; omega), c_string_append i.nul_notMem_path]
  unfold stale
  cases c_string (stack.val.drop (i.dir ++ "/lscov-clang".toList).length) <;> rfl

/-- `_buf` is zeroed, so the link is read without anything behind it. -/
theorem c_string_buf {which : Str → Bool} (c : Compiler which) :
    c_string (fill (List.replicate 1024 NUL) c.path 1023) = some c.path := by
  have hshort := c.short
  rw [fill_eq (by omega), c_string_append c.nul, List.drop_replicate,
    c_string_replicate (by omega), Option.map_some, List.append_nil]

/-- The wrap link is chosen by the stale bytes, whatever the tool was called. -/
theorem wrap_eq {t : Str} (ht : '/' ∉ t) :
    wrap (i.system tool) (i.dir ++ "/lscov-clang".toList ++ t) args =
      .execvp (cc_params (if "++".toList <:+ t then i.cxx else i.cc).path i.dir args) := by
  have hlink : (i.system tool).readlink (wrap_exepath (i.dir ++ "/lscov-clang".toList ++ t)) =
      some (if "++".toList <:+ t then i.cxx else i.cc).path := by
    rw [wrap_exepath_eq ht]
    split
    · exact i.wrap_clangxx
    · exact i.wrap_clang
  have hfound : (i.system tool).which (if "++".toList <:+ t then i.cxx else i.cc).path = true :=
    Compiler.found _
  unfold wrap
  rw [hlink, basepath_eq ht]
  simp only [c_string_buf, hfound, if_true]

theorem wrap_ne {t : Str} (ht : '/' ∈ t) (path : Str) :
    wrap (i.system tool) (i.dir ++ "/lscov-clang".toList ++ t) args ≠
      .execvp (cc_params path i.dir args) := by
  unfold wrap
  split
  · simp
  · split
    · simp
    · split
      · rw [ne_eq, Outcome.execvp.injEq, cc_params_inj]
        exact fun h => basepath_ne ht h.2
      · simp

/-- The stack has a NUL behind the path, and no slash before it. And it has `++` right before
it just when the wrapper was called as `lscov-clang++`, where that makes a difference. -/
def LuckyStack : Prop :=
  ∃ t, c_string (i.stale stack) = some t ∧ '/' ∉ t ∧
    (("++".toList <:+ t ↔ tool = .clangxx) ∨ i.cc.path = i.cxx.path)

/-- The compiler that was chosen is the compiler of the tool. -/
theorem chosen_iff (plus : Prop) [Decidable plus] :
    (if plus then i.cxx else i.cc).path = (i.compiler tool).path ↔
      ((plus ↔ tool = .clangxx) ∨ i.cc.path = i.cxx.path) := by
  cases tool with
  | clang =>
    split
    · next h => simp [compiler, h, eq_comm]
    · next h => simp [compiler, h]
  | clangxx =>
    split
    · next h => simp [compiler, h]
    · next h => simp [compiler, h]

/-! ## The laws -/

/-- The name that the wrapper was called by is lost with the link, and the path is not closed.
So it is the bytes that happen to be on the stack that choose the compiler. -/
theorem the_wrapper_runs_the_compiler_iff :
    i.RunsTheCompiler tool args stack ↔ i.LuckyStack tool stack := by
  unfold RunsTheCompiler LuckyStack
  rw [main_eq, ← cc_params_eq]
  cases c_string (i.stale stack) with
  | none => simp
  | some t =>
    simp only [Option.some.injEq, exists_eq_left']
    by_cases ht : '/' ∈ t
    · simp only [ht, not_true, false_and, iff_false]
      exact i.wrap_ne tool args ht _
    · rw [i.wrap_eq tool args ht, Outcome.execvp.injEq, cc_params_inj, chosen_iff]
      simp [ht]

end Install

/-- A build with `clang` and `clang++` of one system. -/
def usual : Install where
  dir := "/opt/lscov".toList
  nul := by decide
  short := by decide
  readlink := fun path =>
    if path = "/opt/lscov/lscov-clang++".toList then some "/opt/lscov/lscov-clang".toList
    else if path = "/opt/lscov/wrap-clang".toList then some "/usr/bin/clang".toList
    else if path = "/opt/lscov/wrap-clang++".toList then some "/usr/bin/clang++".toList
    else none
  which := fun path => path = "/usr/bin/clang".toList ∨ path = "/usr/bin/clang++".toList
  cc := ⟨"/usr/bin/clang".toList, by decide, by decide, by decide⟩
  cxx := ⟨"/usr/bin/clang++".toList, by decide, by decide, by decide⟩
  program := by decide
  second_name := by decide
  wrap_clang := by decide
  wrap_clangxx := by decide

def zeros : Stack := ⟨List.replicate 512 NUL, List.length_replicate⟩

/-- On a stack of zeros, `lscov-clang++ a.cc` runs the C compiler. -/
theorem lscov_clangxx_runs_clang :
    ¬ usual.RunsTheCompiler .clangxx ["a.cc".toList] zeros := by
  unfold Install.RunsTheCompiler
  have hstale : c_string (usual.stale zeros) = some [] := by
    rw [Install.stale, zeros, List.drop_replicate]
    exact c_string_replicate (by decide)
  rw [usual.main_eq, hstale, ← cc_params_eq]
  simp only
  rw [usual.wrap_eq _ _ List.not_mem_nil, Outcome.execvp.injEq, cc_params_inj]
  decide

end lscov.wrapper
