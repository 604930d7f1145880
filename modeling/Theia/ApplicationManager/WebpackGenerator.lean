import Mathlib.Data.List.Infix
/-!
# `WebpackGenerator`: the webpack configurations of an application

`WebpackGenerator.generate` (`@theia/application-manager`, `unnamed/part_000` of the sources)
writes `gen-webpack.config.js` on every build, and writes `webpack.config.js`, the file a user may
edit, only when it is missing or does not mention `gen-webpack`. The generated configuration is
made of `AbstractGenerator`'s pieces, which are not among the sources: its text is a parameter
here, as are the two paths `pck.path` gives.

* `generate_configPath`: what `webpack.config.js` holds after a build: the user's file when it
  mentions `gen-webpack`, else the template, which requires the generated configuration.
* `generate_generate`: a second build changes no file, so the template a build writes is kept
  by the next ones.
-/

namespace Theia.ApplicationManager

/-- The files of the project: a path's content, `none` when there is no file there. -/
abbrev Files := List Char → Option (List Char)

/-- `write(path, content)`. -/
def write (path content : List Char) (files : Files) : Files :=
  fun p => if p = path then some content else files p

@[simp] theorem write_self (path content : List Char) (files : Files) :
    write path content files path = some content := if_pos rfl

theorem write_of_ne {path p : List Char} (h : p ≠ path) (content : List Char) (files : Files) :
    write path content files p = files p := if_neg h

/-- `paths.basename` of a path with no trailing `/`: what follows its last `/`. -/
def basename (path : List Char) : List Char := (path.reverse.takeWhile (· ≠ '/')).reverse

/-- The generator, as far as `generate` reads it. -/
structure WebpackGenerator where
  /-- `configPath`: `pck.path('webpack.config.js')`. -/
  configPath : List Char
  /-- `genConfigPath`: `pck.path('gen-webpack.config.js')`. -/
  genConfigPath : List Char
  /-- The text of `compileWebpackConfig()`. -/
  webpackConfig : List Char

namespace WebpackGenerator

variable (g : WebpackGenerator)

/-- `compileUserWebpackConfig`. -/
def compileUserWebpackConfig : List Char :=
  "/**\n * This file can be edited to customize webpack configuration.\n * To reset delete this file and rerun theia build again.\n */\n// @ts-check\nconst config = require(\x27./".toList ++
    basename g.genConfigPath ++
    "\x27);\n\n/**\n * Expose bundled modules on window.theia.moduleName namespace, e.g.\n * window[\x27theia\x27][\x27@theia/core/lib/common/uri\x27].\n * Such syntax can be used by external code, for instance, for testing.\nconfig.module.rules.push(\x7b\n    test: /\\.js$/,\n    loader: require.resolve(\x27@theia/application-manager/lib/expose-loader\x27)\n\x7d); */\n\nmodule.exports = config;".toList

/-- `shouldGenerateUserWebpackConfig`: `webpack.config.js` is missing, or does not mention
`gen-webpack` (`content.indexOf('gen-webpack') === -1`). -/
def shouldGenerateUserWebpackConfig (files : Files) : Bool :=
  match files g.configPath with
  | none => true
  | some content => !decide ("gen-webpack".toList <:+: content)

/-- `generate`. -/
def generate (files : Files) : Files :=
  let files := write g.genConfigPath g.webpackConfig files
  if g.shouldGenerateUserWebpackConfig files then write g.configPath g.compileUserWebpackConfig files
  else files

/-- What `webpack.config.js` holds after a build. -/
def userConfigAfter : Option (List Char) → List Char
  | some content => if "gen-webpack".toList <:+: content then content else g.compileUserWebpackConfig
  | none => g.compileUserWebpackConfig

section Paths

variable {g} (hpaths : g.configPath ≠ g.genConfigPath) (files : Files)
include hpaths

/-- A build writes `webpack.config.js` from the user's file as `userConfigAfter` says. -/
theorem generate_configPath : g.generate files g.configPath = some (g.userConfigAfter (files g.configPath)) := by
  have hread : write g.genConfigPath g.webpackConfig files g.configPath = files g.configPath :=
    write_of_ne hpaths _ _
  unfold generate shouldGenerateUserWebpackConfig userConfigAfter
  rw [hread]
  cases hfile : files g.configPath with
  | none => rw [if_pos rfl, write_self]
  | some content =>
    rw [hfile] at hread
    by_cases h : "gen-webpack".toList <:+: content
    · simp only [h, decide_True, Bool.not_true, Bool.false_eq_true, if_false, if_true, hread]
    · simp only [h, decide_False, Bool.not_false, if_true, if_false, write_self]

theorem generate_genConfigPath : g.generate files g.genConfigPath = some g.webpackConfig := by
  unfold generate
  split
  · rw [write_of_ne hpaths.symm, write_self]
  · rw [write_self]

end Paths

/- A configuration that does not mention `gen-webpack` gives way to the template. -/
example :
    userConfigAfter ⟨"/p/webpack.config.js".toList, "/p/gen-webpack.config.js".toList, []⟩
        (some "module.exports = config;".toList) =
      compileUserWebpackConfig ⟨"/p/webpack.config.js".toList, "/p/gen-webpack.config.js".toList, []⟩ :=
  by dsimp only [userConfigAfter]; exact if_neg (by decide)

theorem generate_of_ne {p : List Char} (hconfig : p ≠ g.configPath) (hgen : p ≠ g.genConfigPath)
    (files : Files) : g.generate files p = files p := by
  unfold generate
  split <;> simp only [write_of_ne hconfig, write_of_ne hgen]

/-- The template mentions `gen-webpack` when the generated configuration's name does. -/
theorem infix_compileUserWebpackConfig (hname : "gen-webpack".toList <:+: basename g.genConfigPath) :
    "gen-webpack".toList <:+: g.compileUserWebpackConfig :=
  hname.trans (List.infix_append _ _ _)

/-- A second build changes no file: the template a build writes mentions `gen-webpack`, so the
next build keeps it. -/
theorem generate_generate (hpaths : g.configPath ≠ g.genConfigPath)
    (hname : "gen-webpack".toList <:+: basename g.genConfigPath) (files : Files) :
    g.generate (g.generate files) = g.generate files := by
  have hafter : ∀ content, "gen-webpack".toList <:+: g.userConfigAfter content := by
    rintro (_ | content)
    · exact g.infix_compileUserWebpackConfig hname
    · dsimp only [userConfigAfter]
      split_ifs with h
      · exact h
      · exact g.infix_compileUserWebpackConfig hname
  funext p
  by_cases hconfig : p = g.configPath
  · subst hconfig
    rw [generate_configPath hpaths, generate_configPath hpaths, userConfigAfter, if_pos (hafter _)]
  by_cases hgen : p = g.genConfigPath
  · subst hgen
    rw [generate_genConfigPath hpaths, generate_genConfigPath hpaths]
  · rw [g.generate_of_ne hconfig hgen, g.generate_of_ne hconfig hgen]

theorem generate_generate_empty :
    (⟨"/p/webpack.config.js".toList, "/p/gen-webpack.config.js".toList, []⟩ : WebpackGenerator).generate
        ((⟨"/p/webpack.config.js".toList, "/p/gen-webpack.config.js".toList, []⟩ : WebpackGenerator).generate
          fun _ => none) =
      (⟨"/p/webpack.config.js".toList, "/p/gen-webpack.config.js".toList, []⟩ : WebpackGenerator).generate
        fun _ => none :=
  generate_generate _ (by decide) (by decide) _

end WebpackGenerator

end Theia.ApplicationManager
