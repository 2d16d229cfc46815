/-
CodexPlus/CaselessKey.lean

Paths under a caseless key.

`canonical_key` (execpolicy/src/rule.rs) is the Unicode canonical caseless key:
NFD, full case folding, NFD.  What path resolution sees of it is small: a slash is
a slash under it and nothing else becomes one (`splitOn_slash`), and the names with
a meaning of their own, `.`, `..`, `~` and the empty one, have a single spelling
(`reserved`).  So two spellings of a program with one key resolve to paths whose
components pairwise have one key (`fromAbsolutePath_key`).
-/
import CodexPlus.AbsolutePath

namespace CodexPlus

open List

/-- What the key does to paths. -/
structure CaselessKey (key : String → String) : Prop where
  splitOn_slash : ∀ s, (key s).toList.splitOn '/' =
    (s.toList.splitOn '/').map fun piece => (key (String.ofList piece)).toList
  reserved : ∀ s, ∀ t ∈ ["", ".", "..", "~"], key s = key t → s = t

/-! ### Pieces of a raw path -/

/-- What stands between the slashes. -/
def pathPieces (path : String) : List String := (path.toList.splitOn '/').map String.ofList

theorem pathComponents_eq (path : String) :
    pathComponents path = (pathPieces path).filter (· ≠ "") := rfl

theorem pathPieces_slash (a b : String) : pathPieces (a ++ "/" ++ b) = pathPieces a ++ pathPieces b := by
  have hlist : (a ++ "/" ++ b).toList = a.toList ++ '/' :: b.toList := by
    rw [String.toList_append, String.toList_append, append_assoc]
    rfl
  rw [pathPieces, hlist, splitOn_append_cons_self, map_append]
  rfl

/-- Two raw paths with one key have it piece by piece. -/
theorem CaselessKey.map_pathPieces {key : String → String} (hkey : CaselessKey key) {a b : String}
    (h : key a = key b) : (pathPieces a).map key = (pathPieces b).map key := by
  have hpieces : ∀ s, ((pathPieces s).map key) = ((key s).toList.splitOn '/').map String.ofList := by
    intro s
    rw [hkey.splitOn_slash, pathPieces, map_map, map_map]
    refine map_congr_left fun piece _ => ?_
    show key (String.ofList piece) = String.ofList (key (String.ofList piece)).toList
    rw [String.ofList_toList]
  rw [hpieces, hpieces, h]

theorem pathPieces_ne_nil (path : String) : pathPieces path ≠ [] := by
  rw [pathPieces, Ne, map_eq_nil_iff]
  exact splitOn_ne_nil _ _

variable {path : String}

theorem pathPieces_of_not_mem (h : '/' ∉ path.toList) : pathPieces path = [path] := by
  rw [pathPieces, splitOn_eq_singleton h, map_singleton, String.ofList_toList]

/-- A path of several pieces has a slash after the first. -/
theorem exists_of_pathPieces {first second : String} {rest : List String}
    (h : pathPieces path = first :: second :: rest) : ∃ more, path = first ++ "/" ++ more := by
  rcases hsplit : path.toList.splitOn '/' with _ | ⟨piece, _ | ⟨next, pieces⟩⟩
  · exact absurd hsplit (splitOn_ne_nil _ _)
  · rw [pathPieces, hsplit] at h
    cases h
  · rw [pathPieces, hsplit] at h
    obtain ⟨rfl, -⟩ := List.cons.inj h
    have hjoin : ['/'].intercalate (path.toList.splitOn '/') = path.toList :=
      intercalate_splitOn '/'
    rw [hsplit, intercalate_cons_cons] at hjoin
    refine ⟨String.ofList (['/'].intercalate (next :: pieces)), String.toList_inj.mp ?_⟩
    simp only [String.toList_append, String.toList_ofList]
    exact hjoin.symm

namespace CaselessKey

variable {key : String → String} (hkey : CaselessKey key) {a b : String}

include hkey

/-- A first piece with a meaning of its own is the same in both spellings. -/
theorem exists_of_reserved (h : key a = key b) {first more : String}
    (hfirst : first ∈ ["", ".", "..", "~"]) (ha : a = first ++ "/" ++ more) :
    ∃ more', b = first ++ "/" ++ more' ∧ (pathPieces more').map key = (pathPieces more).map key := by
  have hnot : '/' ∉ first.toList := by
    revert hfirst
    simp only [mem_cons, not_mem_nil, or_false]
    rintro (rfl | rfl | rfl | rfl) <;> decide
  have hpieces : ∀ rest, pathPieces (first ++ "/" ++ rest) = first :: pathPieces rest := by
    intro rest
    rw [pathPieces_slash, pathPieces_of_not_mem hnot, singleton_append]
  have hmap := hkey.map_pathPieces h
  rw [ha, hpieces] at hmap
  rcases hb : pathPieces b with _ | ⟨head, _ | ⟨next, rest⟩⟩
  · exact absurd hb (pathPieces_ne_nil b)
  · rw [hb] at hmap
    have hnil := (List.cons.inj hmap).2
    exact absurd (map_eq_nil_iff.mp hnil) (pathPieces_ne_nil more)
  · obtain ⟨more', rfl⟩ := exists_of_pathPieces hb
    rw [hb] at hmap
    obtain ⟨hhead, htail⟩ := List.cons.inj hmap
    obtain rfl : head = first := hkey.reserved head first hfirst hhead.symm
    refine ⟨more', rfl, ?_⟩
    rw [hpieces] at hb
    rw [(List.cons.inj hb).2, htail]

theorem map_filter_ne_empty (l : List String) :
    (l.filter (· ≠ "")).map key = (l.map key).filter (· ≠ key "") := by
  rw [filter_map]
  congr 1
  refine filter_congr fun s _ => ?_
  by_cases hs : s = ""
  · rw [hs]
    simp
  · have hne : key s ≠ key "" := fun heq => hs (hkey.reserved s "" (by simp) heq)
    simp [hs, hne]

theorem map_pathComponents (h : (pathPieces a).map key = (pathPieces b).map key) :
    (pathComponents a).map key = (pathComponents b).map key := by
  rw [pathComponents_eq, pathComponents_eq, hkey.map_filter_ne_empty, hkey.map_filter_ne_empty, h]

omit hkey in
/-- `normalize_path` on keys. -/
def pushKey (key : String → String) (normalized : List String) (c : String) : List String :=
  if c = key "." then normalized
  else if c = key ".." then normalized.dropLast
  else normalized ++ [c]

theorem map_pushComponent (acc : List String) (c : String) :
    (pushComponent acc c).map key = pushKey key (acc.map key) (key c) := by
  rw [pushComponent, pushKey]
  by_cases hdot : c = "."
  · rw [if_pos hdot, if_pos (by rw [hdot])]
  rw [if_neg hdot, if_neg fun heq => hdot (hkey.reserved c "." (by simp) heq)]
  by_cases hdots : c = ".."
  · rw [if_pos hdots, if_pos (by rw [hdots]), map_dropLast]
  · rw [if_neg hdots, if_neg fun heq => hdots (hkey.reserved c ".." (by simp) heq), map_append,
      map_singleton]

theorem map_foldl_pushComponent (cs acc : List String) :
    (cs.foldl pushComponent acc).map key = (cs.map key).foldl (pushKey key) (acc.map key) := by
  induction cs generalizing acc with
  | nil => rfl
  | cons _ _ ih => rw [foldl_cons, ih, hkey.map_pushComponent, map_cons, foldl_cons]

theorem map_normalizePath {cs ds : List String} (h : cs.map key = ds.map key) :
    (normalizePath cs).map key = (normalizePath ds).map key := by
  rw [normalizePath, normalizePath, hkey.map_foldl_pushComponent, hkey.map_foldl_pushComponent, h]

end CaselessKey

/-! ### Resolving both spellings -/

open AbsolutePathBuf

theorem isAbsolute_iff : isAbsolute path ↔ ∃ more, path = "" ++ "/" ++ more := by
  rw [isAbsolute, decide_eq_true_iff]
  constructor
  · intro h
    rcases hlist : path.toList with _ | ⟨c, l⟩
    · rw [hlist] at h
      cases h
    · rw [hlist] at h
      obtain rfl : c = '/' := Option.some.inj h
      refine ⟨String.ofList l, String.toList_inj.mp ?_⟩
      simp only [String.toList_append, String.toList_ofList, hlist]
      rfl
  · rintro ⟨more, rfl⟩
    simp only [String.toList_append]
    rfl

theorem pathComponents_slash (a b : String) :
    pathComponents (a ++ "/" ++ b) = pathComponents a ++ pathComponents b := by
  rw [pathComponents_eq, pathPieces_slash, filter_append]
  rfl

theorem pathComponents_joinRaw {base : String} (h : isAbsolute path = false) :
    pathComponents (joinRaw base path) = pathComponents base ++ pathComponents path := by
  rw [joinRaw, h]
  by_cases hbase : base = ""
  · rw [hbase]
    rfl
  · rw [if_neg (by simpa using hbase), pathComponents_slash]

theorem components_absolutizeFrom (path base : String) :
    (absolutizeFrom path base).components = normalizePath (pathComponents (joinRaw base path)) := rfl

theorem joinRaw_of_isAbsolute {base : String} (h : isAbsolute path) : joinRaw base path = path := by
  rw [joinRaw, h, Bool.true_or, if_pos rfl]

/-- The slashes after `~` are dropped; they add no component. -/
theorem pathComponents_dropWhile (l : List Char) :
    pathComponents (String.ofList (l.dropWhile (· = '/'))) = pathComponents (String.ofList l) := by
  induction l with
  | nil => rfl
  | cons c l ih =>
    by_cases hc : c = '/'
    · rw [dropWhile_cons_of_pos (by simpa using hc), ih, hc]
      have hslash : String.ofList ('/' :: l) = "" ++ "/" ++ String.ofList l :=
        String.toList_inj.mp (by simp only [String.toList_append, String.toList_ofList]; rfl)
      rw [hslash, pathComponents_slash]
      rfl
    · rw [dropWhile_cons_of_neg (by simpa using hc)]

theorem isAbsolute_dropWhile (l : List Char) :
    isAbsolute (String.ofList (l.dropWhile (· = '/'))) = false := by
  rw [isAbsolute, decide_eq_false_iff_not, String.toList_ofList]
  intro h
  have hhead := head?_dropWhile_not (· = '/') l
  rw [h] at hhead
  simp at hhead

theorem maybeExpandHomeDirectory_slash {env : PathEnv} {home : String}
    (hhome : env.homeDirectory = some home) (more : String) :
    maybeExpandHomeDirectory env ("~" ++ "/" ++ more) =
      joinRaw home (String.ofList (more.toList.dropWhile (· = '/'))) := by
  have hlist : ("~" ++ "/" ++ more).toList = '~' :: '/' :: more.toList := by
    simp only [String.toList_append]
    rfl
  rw [maybeExpandHomeDirectory, hlist, hhome]
  rfl

theorem maybeExpandHomeDirectory_other {env : PathEnv}
    (h : env.homeDirectory = none ∨ path ≠ "~" ∧ ∀ more, path ≠ "~" ++ "/" ++ more) :
    maybeExpandHomeDirectory env path = path := by
  rw [maybeExpandHomeDirectory]
  split
  · next hlist hhome =>
    rcases h with h | ⟨h, -⟩
    · rw [h] at hhome
      cases hhome
    · exact absurd (String.toList_inj.mp hlist) h
  · next rest _ hlist hhome =>
    rcases h with h | ⟨-, h⟩
    · rw [h] at hhome
      cases hhome
    · refine absurd (String.toList_inj.mp ?_) (h (String.ofList rest))
      simp only [String.toList_append, String.toList_ofList, hlist]
      rfl
  · rfl

namespace CaselessKey

variable {key : String → String} (hkey : CaselessKey key) {a b : String}

include hkey

theorem isAbsolute_eq (h : key a = key b) : isAbsolute a = isAbsolute b := by
  rw [Bool.eq_iff_iff, isAbsolute_iff, isAbsolute_iff]
  constructor
  · rintro ⟨more, ha⟩
    obtain ⟨more', hb, -⟩ := hkey.exists_of_reserved h (by simp) ha
    exact ⟨more', hb⟩
  · rintro ⟨more, hb⟩
    obtain ⟨more', ha, -⟩ := hkey.exists_of_reserved h.symm (by simp) hb
    exact ⟨more', ha⟩

/-- After the home directory is put in, the spellings still agree. -/
theorem expanded (env : PathEnv) (h : key a = key b) :
    isAbsolute (maybeExpandHomeDirectory env a) = isAbsolute (maybeExpandHomeDirectory env b) ∧
      (pathComponents (maybeExpandHomeDirectory env a)).map key =
        (pathComponents (maybeExpandHomeDirectory env b)).map key := by
  have hother : (env.homeDirectory = none ∨ a ≠ "~" ∧ ∀ more, a ≠ "~" ++ "/" ++ more) →
      isAbsolute (maybeExpandHomeDirectory env a) = isAbsolute (maybeExpandHomeDirectory env b) ∧
      (pathComponents (maybeExpandHomeDirectory env a)).map key =
        (pathComponents (maybeExpandHomeDirectory env b)).map key := by
    intro ha
    have hb : env.homeDirectory = none ∨ b ≠ "~" ∧ ∀ more, b ≠ "~" ++ "/" ++ more := by
      refine ha.imp id fun ⟨htilde, hslash⟩ => ⟨?_, ?_⟩
      · rintro rfl
        exact htilde (hkey.reserved a "~" (by simp) h)
      · intro more hb
        obtain ⟨more', ha', -⟩ := hkey.exists_of_reserved h.symm (by simp) hb
        exact hslash more' ha'
    rw [maybeExpandHomeDirectory_other ha, maybeExpandHomeDirectory_other hb]
    exact ⟨hkey.isAbsolute_eq h, hkey.map_pathComponents (hkey.map_pathPieces h)⟩
  rcases hhome : env.homeDirectory with _ | home
  · exact hother (.inl hhome)
  by_cases htilde : a = "~"
  · have hb : b = a := by
      rw [htilde] at h ⊢
      exact hkey.reserved b "~" (by simp) h.symm
    rw [hb]
    exact ⟨rfl, rfl⟩
  by_cases hslash : ∃ more, a = "~" ++ "/" ++ more
  · -- below the home directory
    obtain ⟨more, rfl⟩ := hslash
    obtain ⟨more', rfl, hmore⟩ := hkey.exists_of_reserved h (by simp) rfl
    rw [maybeExpandHomeDirectory_slash hhome, maybeExpandHomeDirectory_slash hhome]
    refine ⟨?_, ?_⟩
    · rw [joinRaw, joinRaw, isAbsolute_dropWhile, isAbsolute_dropWhile]
      by_cases hempty : home = ""
      · rw [if_pos (by simpa using hempty), if_pos (by simpa using hempty), isAbsolute_dropWhile,
          isAbsolute_dropWhile]
      · rw [if_neg (by simpa using hempty), if_neg (by simpa using hempty)]
        rcases hlist : home.toList with _ | ⟨c, l⟩
        · exact absurd (String.toList_inj.mp hlist) hempty
        · simp [isAbsolute, hlist]
    · rw [pathComponents_joinRaw (isAbsolute_dropWhile _), pathComponents_joinRaw (isAbsolute_dropWhile _),
        pathComponents_dropWhile, pathComponents_dropWhile, String.ofList_toList, String.ofList_toList,
        map_append, map_append, hkey.map_pathComponents hmore]
  · exact hother (.inr ⟨htilde, fun more hmore => hslash ⟨more, hmore⟩⟩)

/-- **Two spellings of a program with one key** resolve to paths whose file names have one key. -/
theorem fromAbsolutePath_key (env : PathEnv) (h : key a = key b) {p : AbsolutePathBuf}
    (hp : fromAbsolutePath env a = some p) :
    ∃ q, fromAbsolutePath env b = some q ∧ q.fileName.map key = p.fileName.map key := by
  obtain ⟨habsolute, hcomponents⟩ := hkey.expanded env h
  have hname : ∀ base, (pathComponents (joinRaw base (maybeExpandHomeDirectory env a))).map key =
      (pathComponents (joinRaw base (maybeExpandHomeDirectory env b))).map key →
      (absolutizeFrom (maybeExpandHomeDirectory env b) base).fileName.map key =
        (absolutizeFrom (maybeExpandHomeDirectory env a) base).fileName.map key := by
    intro base hbase
    rw [fileName, fileName, ← getLast?_map, ← getLast?_map, components_absolutizeFrom,
      components_absolutizeFrom, hkey.map_normalizePath hbase]
  rw [fromAbsolutePath] at hp ⊢
  rw [← habsolute]
  rcases hrooted : isAbsolute (maybeExpandHomeDirectory env a) with _ | _
  · -- below the working directory
    rw [hrooted] at hp
    rw [if_neg Bool.false_ne_true]
    obtain ⟨cwd, hcwd, rfl⟩ := Option.map_eq_some_iff.mp hp
    refine ⟨absolutizeFrom (maybeExpandHomeDirectory env b) cwd, by rw [hcwd, Option.map_some], hname cwd ?_⟩
    rw [pathComponents_joinRaw hrooted, pathComponents_joinRaw (habsolute ▸ hrooted), map_append,
      map_append, hcomponents]
  · rw [hrooted] at hp
    obtain rfl := Option.some.inj hp
    refine ⟨absolutizeFrom (maybeExpandHomeDirectory env b) "/", if_pos rfl, hname "/" ?_⟩
    rw [joinRaw_of_isAbsolute hrooted, joinRaw_of_isAbsolute (habsolute ▸ hrooted)]
    exact hcomponents

end CaselessKey

/-- A key that folds character by character, and folds nothing to `/`, `.` or `~`. -/
theorem CaselessKey.ofChars {fold : Char → Char}
    (hfold : ∀ c, ∀ d ∈ ['/', '.', '~'], fold c = d ↔ c = d) :
    CaselessKey fun s => String.ofList (s.toList.map fold) := by
  have hslash : ∀ l : List Char, (l.map fold).splitOn '/' = (l.splitOn '/').map (List.map fold) := by
    intro l
    induction l with
    | nil => rfl
    | cons c l ih =>
      rw [List.splitOn] at ih ⊢
      rw [map_cons, splitOnP_cons_eq_if_modifyHead, List.splitOn,
        splitOnP_cons_eq_if_modifyHead, ih]
      by_cases hc : c = '/'
      · have hfolded : fold c = '/' := (hfold c '/' (by simp)).mpr hc
        rw [if_pos (by simpa using hfolded), if_pos (by simpa using hc)]
        rfl
      · have hfolded : fold c ≠ '/' := fun heq => hc ((hfold c '/' (by simp)).mp heq)
        rw [if_neg (by simpa using hfolded), if_neg (by simpa using hc)]
        show ((List.splitOnP (· == '/') l).map (List.map fold)).modifyHead _ = _
        rcases List.splitOnP (· == '/') l with _ | ⟨piece, pieces⟩ <;> rfl
  constructor
  · intro s
    simp only [String.toList_ofList]
    exact hslash s.toList
  · intro s t ht heq
    have hmap : s.toList.map fold = t.toList.map fold := by
      simpa only [String.ofList_inj] using heq
    have hchars : ∀ d ∈ t.toList, d ∈ ['/', '.', '~'] := by
      revert ht
      simp only [mem_cons, not_mem_nil, or_false]
      rintro (rfl | rfl | rfl | rfl) <;> simp
    refine String.toList_inj.mp ?_
    have hall : ∀ {l m : List Char}, (∀ d ∈ m, d ∈ ['/', '.', '~']) → l.map fold = m.map fold → l = m := by
      intro l m hm hlm
      induction m generalizing l with
      | nil => exact map_eq_nil_iff.mp hlm
      | cons d m ih =>
        rcases l with _ | ⟨c, l⟩
        · cases hlm
        · obtain ⟨hhead, htail⟩ := List.cons.inj hlm
          have hd := hm d mem_cons_self
          have hcd : c = d := (hfold c d hd).mp (hhead.trans ((hfold d d hd).mpr rfl))
          rw [hcd, ih (fun e he => hm e (mem_cons_of_mem _ he)) htail]
    exact hall hchars hmap

end CodexPlus
