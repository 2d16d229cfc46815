/-
CodexPlus/AbsolutePath.lean

Absolute paths (`utils/absolute-path`), POSIX build.

`AbsolutePathBuf` is the repository's "absolute and normalized" path.  Here it is
the list of its normal components, and the normalization the Rust type promises
in its doc comment is a field: no component is empty, `.`, `..` or holds a `/`.
A raw path (a command token, a configured path, `$HOME`) is a `String`; it only
becomes an `AbsolutePathBuf` through `absolutize`, as in `absolutize.rs`.

The Windows branches (`normalize_windows_device_path`, drive prefixes) are not
modelled.  `$HOME` and the process working directory are the two values the
code reads from its environment; they are the fields of `PathEnv`.
-/
import CodexPlus.LineLog
import Mathlib.Data.List.Infix

namespace CodexPlus

open List

/-! ### Raw paths -/

/-- A component that `Path::components` yields as `Component::Normal`. -/
def isNormalComponent (c : String) : Bool :=
  c ≠ "" && c ≠ "." && c ≠ ".." && !c.toList.contains '/'

/-- `Path::is_absolute` on POSIX. -/
def isAbsolute (path : String) : Bool := path.toList.head? = some '/'

/-- The named components of a raw path.  `.` is still listed: `components()` drops it
everywhere but at the start of a relative path, and `normalize_path` drops it there. -/
def pathComponents (path : String) : List String :=
  ((path.toList.splitOn '/').map String.ofList).filter (· ≠ "")

/-- One turn of the loop of `normalize_path`: `pop` at the root does nothing. -/
def pushComponent (normalized : List String) (c : String) : List String :=
  if c = "." then normalized
  else if c = ".." then normalized.dropLast
  else normalized ++ [c]

/-- `normalize_path`, below the root. -/
def normalizePath (components : List String) : List String :=
  components.foldl pushComponent []

theorem pathComponents_spec {path c : String} (h : c ∈ pathComponents path) :
    c ≠ "" ∧ '/' ∉ c.toList := by
  simp only [pathComponents, mem_filter, mem_map, decide_eq_true_eq] at h
  obtain ⟨⟨piece, hp, rfl⟩, hne⟩ := h
  exact ⟨hne, by simpa using LineLog.not_mem_of_mem_splitOn '/' _ piece hp⟩

theorem pushComponent_normal {acc : List String} {c : String}
    (hacc : ∀ d ∈ acc, isNormalComponent d) (hc : c ≠ "" ∧ '/' ∉ c.toList) :
    ∀ d ∈ pushComponent acc c, isNormalComponent d := by
  intro d hd
  unfold pushComponent at hd
  split at hd
  · exact hacc d hd
  split at hd
  · exact hacc d (mem_of_mem_dropLast hd)
  · rename_i h1 h2
    rcases mem_append.mp hd with hd | hd
    · exact hacc d hd
    · obtain rfl := mem_singleton.mp hd
      simp [isNormalComponent, hc.1, hc.2, h1, h2]

theorem foldl_pushComponent_normal (cs : List String) :
    ∀ (acc : List String), (∀ d ∈ acc, isNormalComponent d) →
      (∀ c ∈ cs, c ≠ "" ∧ '/' ∉ c.toList) →
      ∀ d ∈ cs.foldl pushComponent acc, isNormalComponent d := by
  induction cs with
  | nil => intro acc hacc _; exact hacc
  | cons c _ ih =>
    intro acc hacc hcs
    exact ih _ (pushComponent_normal hacc (hcs c mem_cons_self))
      fun c' h' => hcs c' (mem_cons_of_mem _ h')

/-! ### `AbsolutePathBuf` -/

/-- An absolute, lexically normalized path, below the root. -/
structure AbsolutePathBuf where
  components : List String
  normal : ∀ c ∈ components, isNormalComponent c
  deriving DecidableEq

namespace AbsolutePathBuf

/-- What the code reads from its process environment. -/
structure PathEnv where
  /-- `AbsolutePathBufGuard::home_directory` -/
  homeDirectory : Option String
  /-- `std::env::current_dir`, an absolute path when it can be read -/
  currentDir : Option String

/-- `Path::join` of raw paths. -/
def joinRaw (base path : String) : String :=
  if isAbsolute path || base = "" then path else base ++ "/" ++ path

/-- `maybe_expand_home_directory` -/
def maybeExpandHomeDirectory (env : PathEnv) (path : String) : String :=
  match path.toList, env.homeDirectory with
  | ['~'], some home => home
  | '~' :: '/' :: rest, some home => joinRaw home (String.ofList (rest.dropWhile (· = '/')))
  | _, _ => path

/-- The normalized path with the given raw components. -/
def ofComponents (cs : List String) (h : ∀ c ∈ cs, c ≠ "" ∧ '/' ∉ c.toList) : AbsolutePathBuf :=
  ⟨normalizePath cs, foldl_pushComponent_normal cs [] (by simp) h⟩

/-- `absolutize_from`: a relative path is read below `base`. -/
def absolutizeFrom (path base : String) : AbsolutePathBuf :=
  ofComponents (pathComponents (joinRaw base path)) fun _ => pathComponents_spec

/-- `from_absolute_path`, which `TryFrom<String>` calls: a relative path is resolved
against the working directory, and only an unreadable working directory is an error. -/
def fromAbsolutePath (env : PathEnv) (path : String) : Option AbsolutePathBuf :=
  let expanded := maybeExpandHomeDirectory env path
  if isAbsolute expanded then some (absolutizeFrom expanded "/")
  else env.currentDir.map (absolutizeFrom expanded)

/-- `Path::file_name` -/
def fileName (p : AbsolutePathBuf) : Option String := p.components.getLast?

example : (fromAbsolutePath ⟨none, none⟩ "/usr/./local/../bin/rm").map components
    = some ["usr", "bin", "rm"] := by decide

example : (fromAbsolutePath ⟨some "/home/u", some "/w"⟩ "~//bin").map components
    = some ["home", "u", "bin"] := by decide

end AbsolutePathBuf

end CodexPlus
