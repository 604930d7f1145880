import Mathlib.Data.List.Basic
/-!
# `NodePtyTerminalFactory`: the inspector flags a fork leaves out, and what it spawns

`getCurrentExecArgv` (`packages/terminal/src/node/node-pty-terminal-factory.ts`) copies
`process.execArgv`, leaving out every argument that matches `/^--inspect(-brk?)(=|$)/`, and after
a match whose second group is empty also the argument that follows it.

The group `(-brk?)` is not optional: it is `-br` with an optional `k`. So the pattern matches
`--inspect-brk` and `--inspect-br`, each alone or before `=`, and not `--inspect` or
`--inspect=<port>`.

* `getCurrentExecArgv_sublist`, `inspectMatch_of_mem_getCurrentExecArgv`: the result keeps
  arguments in order, and none that matches the pattern.
* `getCurrentExecArgv_eq_filter`: with no bare `--inspect-brk` or `--inspect-br`, the result is
  the arguments that do not match the pattern.
* `inspectMatch_eq_some`: what the pattern matches.
* `getCurrentExecArgv_keeps_inspect`: `--inspect` and `--inspect=<port>` are kept, and the
  argument after a bare `--inspect-brk` is dropped.
* `spawn` and `fork` resolve their options (`resolveSpawnOptions`, `resolveForkOptions`) into what
  node-pty is handed: the environment of the backend's variables with a value (`getCurrentEnv`)
  unless the options give one, and the exec arguments of `getCurrentExecArgv` for a fork.
-/

namespace Theia.Terminal

/-- `(=|$)` at `rest`: the text of the group, `=` or the empty match at the end. -/
def eqOrEnd : List Char → Option (List Char)
  | '=' :: _ => some ['=']
  | [] => some []
  | _ :: _ => none

/-- `(-brk?)(=|$)` at `rest`: `-brk`, then `-br` when `(=|$)` fails after the `k`; the text of the
second group. -/
def brkEqOrEnd : List Char → Option (List Char)
  | '-' :: 'b' :: 'r' :: rest =>
    match rest with
    | 'k' :: rest' => eqOrEnd rest' <|> eqOrEnd rest
    | _ => eqOrEnd rest
  | _ => none

/-- `argv.match(/^--inspect(-brk?)(=|$)/)`: `match[2]` when the pattern matches. -/
def inspectMatch (argv : List Char) : Option (List Char) :=
  if "--inspect".toList.isPrefixOf argv then brkEqOrEnd (argv.drop 9) else none

/-- `getCurrentExecArgv` with `process.execArgv` as `execArgv`. The `for` loop runs over the
arguments left; `i += 1` after a match with an empty `match[2]` skips the next one. -/
def getCurrentExecArgv : List (List Char) → List (List Char)
  | [] => []
  | argv :: rest =>
    match inspectMatch argv with
    | some group =>
      if group = [] then
        match rest with
        | [] => []
        | _ :: rest' => getCurrentExecArgv rest'
      else getCurrentExecArgv rest
    | none => argv :: getCurrentExecArgv rest

/-! ## The pattern -/

theorem eqOrEnd_eq_some {s g : List Char} :
    eqOrEnd s = some g ↔ s = [] ∧ g = [] ∨ ∃ x, s = '=' :: x ∧ g = ['='] := by
  match s with
  | [] => simp [eqOrEnd, eq_comm]
  | c :: x =>
    by_cases hc : c = '='
    · subst hc; simp [eqOrEnd, eq_comm]
    · simp [eqOrEnd, hc]

/-- `(-brk?)` is `-br` or `-brk`, and `(=|$)` must match after it. -/
theorem brkEqOrEnd_eq_some {s g : List Char} :
    brkEqOrEnd s = some g ↔
      ∃ flag ∈ ["-br".toList, "-brk".toList], ∃ t, s = flag ++ t ∧ eqOrEnd t = some g := by
  constructor
  · intro h
    unfold brkEqOrEnd at h
    split at h
    · split at h
      · refine ⟨"-brk".toList, by simp, _, rfl, ?_⟩
        simpa [eqOrEnd] using h
      · exact ⟨"-br".toList, by simp, _, rfl, h⟩
    · cases h
  · rintro ⟨flag, hflag, t, rfl, ht⟩
    simp only [List.mem_cons, List.mem_singleton, List.not_mem_nil, or_false] at hflag
    rcases hflag with rfl | rfl
    · rcases eqOrEnd_eq_some.1 ht with ⟨rfl, rfl⟩ | ⟨x, rfl, rfl⟩ <;> rfl
    · show (eqOrEnd t <|> _) = _
      simp [ht]

/-- What `/^--inspect(-brk?)(=|$)/` matches: `--inspect-br` or `--inspect-brk`, alone or before
`=`; the second group is what follows the flag. -/
theorem inspectMatch_eq_some {argv g : List Char} :
    inspectMatch argv = some g ↔
      ∃ flag ∈ ["--inspect-br".toList, "--inspect-brk".toList], ∃ t, argv = flag ++ t ∧
        eqOrEnd t = some g := by
  have hflags : ["--inspect-br".toList, "--inspect-brk".toList] =
      ["-br".toList, "-brk".toList].map ("--inspect".toList ++ ·) := rfl
  simp only [hflags, List.mem_map, exists_exists_and_eq_and, List.append_assoc]
  unfold inspectMatch
  split
  · rename_i hp
    obtain ⟨s, rfl⟩ := List.isPrefixOf_iff_prefix.1 hp
    simp only [List.drop_left' (show "--inspect".toList.length = 9 from rfl), brkEqOrEnd_eq_some,
      List.append_cancel_left_eq]
  · rename_i hp
    refine iff_of_false (by simp) ?_
    rintro ⟨flag, -, t, rfl, -⟩
    exact hp (List.isPrefixOf_iff_prefix.2 ⟨_, rfl⟩)

/-! ## One turn of the loop -/

section Step

variable {argv : List Char} {rest : List (List Char)}

@[simp] theorem getCurrentExecArgv_cons_of_none (h : inspectMatch argv = none) :
    getCurrentExecArgv (argv :: rest) = argv :: getCurrentExecArgv rest := by
  cases rest <;> simp [getCurrentExecArgv, h]

theorem getCurrentExecArgv_cons_of_ne {group : List Char} (h : inspectMatch argv = some group)
    (hgroup : group ≠ []) : getCurrentExecArgv (argv :: rest) = getCurrentExecArgv rest := by
  cases rest <;> simp [getCurrentExecArgv, h, hgroup]

/-- A match with an empty second group skips the argument after it. -/
theorem getCurrentExecArgv_cons_of_bare (h : inspectMatch argv = some []) :
    getCurrentExecArgv (argv :: rest) = getCurrentExecArgv rest.tail := by
  cases rest <;> simp [getCurrentExecArgv, h]

end Step

/-! ## What the loop keeps -/

theorem getCurrentExecArgv_sublist (execArgv : List (List Char)) :
    (getCurrentExecArgv execArgv).Sublist execArgv := by
  induction execArgv using getCurrentExecArgv.induct with
  | case1 => exact List.Sublist.slnil
  | case2 argv hmatch =>
    rw [getCurrentExecArgv_cons_of_bare hmatch]
    exact List.nil_sublist _
  | case3 argv next rest hmatch ih =>
    rw [getCurrentExecArgv_cons_of_bare hmatch]
    exact (ih.cons next).cons argv
  | case4 argv rest group hmatch hgroup ih =>
    rw [getCurrentExecArgv_cons_of_ne hmatch hgroup]
    exact ih.cons argv
  | case5 argv rest hmatch ih =>
    rw [getCurrentExecArgv_cons_of_none hmatch]
    exact ih.cons₂ argv

theorem inspectMatch_of_mem_getCurrentExecArgv {execArgv : List (List Char)} :
    ∀ argv ∈ getCurrentExecArgv execArgv, inspectMatch argv = none := by
  induction execArgv using getCurrentExecArgv.induct with
  | case1 => nofun
  | case2 argv hmatch => rw [getCurrentExecArgv_cons_of_bare hmatch]; nofun
  | case3 argv next rest hmatch ih => rwa [getCurrentExecArgv_cons_of_bare hmatch]
  | case4 argv rest group hmatch hgroup ih => rwa [getCurrentExecArgv_cons_of_ne hmatch hgroup]
  | case5 argv rest hmatch ih =>
    simp only [getCurrentExecArgv_cons_of_none hmatch, List.mem_cons, forall_eq_or_imp]
    exact ⟨hmatch, ih⟩

/-- With no bare `--inspect-brk` or `--inspect-br`, nothing is skipped: the loop keeps exactly the
arguments that do not match. -/
theorem getCurrentExecArgv_eq_filter {execArgv : List (List Char)}
    (h : ∀ argv ∈ execArgv, inspectMatch argv ≠ some []) :
    getCurrentExecArgv execArgv = execArgv.filter fun argv => inspectMatch argv = none := by
  induction execArgv using getCurrentExecArgv.induct with
  | case1 => rfl
  | case2 argv hmatch => exact absurd hmatch (h argv (List.mem_singleton_self _))
  | case3 argv next rest hmatch ih => exact absurd hmatch (h argv (List.mem_cons_self _ _))
  | case4 argv rest group hmatch hgroup ih =>
    rw [getCurrentExecArgv_cons_of_ne hmatch hgroup, ih fun a ha => h a (List.mem_cons_of_mem _ ha)]
    simp [hmatch]
  | case5 argv rest hmatch ih =>
    rw [getCurrentExecArgv_cons_of_none hmatch, ih fun a ha => h a (List.mem_cons_of_mem _ ha)]
    simp [hmatch]

/-! ## Inspector flags that stay, and an argument that goes -/

/-- `--inspect` and `--inspect=<port>` are kept wherever they stand, and a bare `--inspect-brk`
takes the argument after it with it. -/
theorem getCurrentExecArgv_keeps_inspect (port next : List Char) (rest : List (List Char)) :
    getCurrentExecArgv ("--inspect".toList :: ("--inspect=".toList ++ port) :: rest) =
        "--inspect".toList :: ("--inspect=".toList ++ port) :: getCurrentExecArgv rest ∧
      getCurrentExecArgv ("--inspect-brk".toList :: next :: rest) = getCurrentExecArgv rest :=
  ⟨by rw [getCurrentExecArgv_cons_of_none (show inspectMatch "--inspect".toList = none from rfl),
      getCurrentExecArgv_cons_of_none (show inspectMatch ("--inspect=".toList ++ port) = none from rfl)],
    getCurrentExecArgv_cons_of_bare (show inspectMatch "--inspect-brk".toList = some [] from rfl)⟩

/-! ## Spawning and forking -/

/-- The process the factory runs in: `process.execPath`, `process.cwd()`, `process.execArgv`, and
`process.env`, whose keys are distinct and whose values may be `undefined`. -/
structure Process where
  execPath : List Char
  cwd : List Char
  execArgv : List (List Char)
  env : List (List Char × Option (List Char))

/-- `TerminalOptions`; an `undefined` option is `none`. -/
structure TerminalOptions where
  cwd : Option (List Char)
  env : Option (List (List Char × List Char))
  size : Option (Option Nat × Option Nat)

/-- `TerminalSpawnOptions`. -/
structure TerminalSpawnOptions extends TerminalOptions where
  executable : List Char
  arguments : Option (List (List Char))

/-- `TerminalForkOptions`. -/
structure TerminalForkOptions extends TerminalOptions where
  modulePath : List Char
  arguments : Option (List (List Char))
  execPath : Option (List Char)
  execArgv : Option (List (List Char))

/-- `Required<TerminalOptions>`. -/
structure ResolvedOptions where
  cwd : List Char
  env : List (List Char × List Char)
  size : Option Nat × Option Nat

/-- `getCurrentEnv`: the variables of `process.env` whose value is neither empty nor `undefined`. -/
def getCurrentEnv (process : Process) : List (List Char × List Char) :=
  process.env.filterMap fun
    | (key, some value) => if value ≠ [] then some (key, value) else none
    | (_, none) => none

/-- `resolveCommonOptions`: the size is left `undefined`, whatever the options ask. -/
def resolveCommonOptions (process : Process) (options : TerminalOptions) : ResolvedOptions :=
  ⟨options.cwd.getD process.cwd, options.env.getD (getCurrentEnv process), (none, none)⟩

/-- `Required<TerminalSpawnOptions>`. -/
structure ResolvedSpawnOptions extends ResolvedOptions where
  executable : List Char
  arguments : List (List Char)

/-- `Required<TerminalForkOptions>`. -/
structure ResolvedForkOptions extends ResolvedOptions where
  modulePath : List Char
  arguments : List (List Char)
  execPath : List Char
  execArgv : List (List Char)

/-- `resolveSpawnOptions`. -/
def resolveSpawnOptions (process : Process) (options : TerminalSpawnOptions) : ResolvedSpawnOptions :=
  { resolveCommonOptions process options.toTerminalOptions with
    executable := options.executable
    arguments := options.arguments.getD [] }

/-- `resolveForkOptions`. -/
def resolveForkOptions (process : Process) (options : TerminalForkOptions) : ResolvedForkOptions :=
  { resolveCommonOptions process options.toTerminalOptions with
    modulePath := options.modulePath
    arguments := options.arguments.getD []
    execPath := options.execPath.getD process.execPath
    execArgv := options.execArgv.getD (getCurrentExecArgv process.execArgv) }

/-- What `spawn` hands node-pty: the file, its arguments, and the options `cwd`, `env`, `cols`
and `rows`. -/
structure PtySpawn where
  file : List Char
  args : List (List Char)
  cwd : List Char
  env : List (List Char × List Char)
  cols : Option Nat
  rows : Option Nat

/-- `TerminalProcessInfo`. -/
structure TerminalProcessInfo where
  pid : Nat
  executable : List Char
  arguments : List (List Char)
  cwd : List Char
  env : List (List Char × List Char)

/-- `getTerminalProcessInfo`, with the pty's `pid`. -/
def getTerminalProcessInfo (pid : Nat) (resolved : ResolvedSpawnOptions) : TerminalProcessInfo :=
  ⟨pid, resolved.executable, resolved.arguments, resolved.cwd, resolved.env⟩

/-- `spawn`: the pty it starts, and the information of the terminal; `pid` is the pty's. -/
def spawn (process : Process) (pid : Nat) (options : TerminalSpawnOptions) : PtySpawn × TerminalProcessInfo :=
  let resolved := resolveSpawnOptions process options
  (⟨resolved.executable, resolved.arguments, resolved.cwd, resolved.env, resolved.size.1, resolved.size.2⟩,
    getTerminalProcessInfo pid resolved)

/-- `fork`: `spawn` of the exec path, with the exec arguments, the module and its arguments. -/
def fork (process : Process) (pid : Nat) (options : TerminalForkOptions) : PtySpawn × TerminalProcessInfo :=
  let resolved := resolveForkOptions process options
  spawn process pid
    { executable := resolved.execPath
      arguments := some (resolved.execArgv ++ resolved.modulePath :: resolved.arguments)
      cwd := some resolved.cwd
      env := some resolved.env
      size := none }

end Theia.Terminal
