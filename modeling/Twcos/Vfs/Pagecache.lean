import Twcos.Prog.Inside
import Twcos.Tree.Table

/-!
# The page cache

Model of `kernel/vfs.c`: `page_cache_key_comp`, `page_cache_init` and `vnode_get_page`, on the tree of `libk/tree.c`. The file
system behind a vnode is a parameter: `get_page` gives a page, or throws. The keys in the tree are pointers to structures
which are never changed, so these are the keys here. `vnode_get_page` takes no lock, and its calls come one after the
other.

C → Lean naming: `page_cache_key_t` → `PageCacheKey`; `page_cache_key_comp`, `vnode_get_page` → `pageCacheKeyComp`,
`vnodeGetPage`; what `get_page` of the file system gave so far is `State.reads`.
-/

namespace Twcos.Vfs
open Twcos.Prog Twcos.Tree

structure PageCacheKey where
  vnode : BitVec 32
  offset : BitVec 64
deriving DecidableEq

def pageCacheKeyComp (k1 k2 : PageCacheKey) : Int :=
  if k1.vnode = k2.vnode then
    -- same vnode, sort by offset
    if k1.offset < k2.offset then -1 else if k2.offset < k1.offset then 1 else 0
  else if k1.vnode < k2.vnode then -1 else if k2.vnode < k1.vnode then 1 else 0

abbrev Page := Nat

/-- The tree, the file systems, and the results of all reads, where `none` stands for an exception. -/
structure State (φ : Type) where
  page_cache : Mem PageCacheKey Page
  fs : φ
  reads : List (PageCacheKey × Option Page)

section Code
variable {φ : Type} (env : Env PageCacheKey Page) (getPage : PageCacheKey → φ → Option Page × φ)

abbrev Code (φ α : Type) := Prog Tree.Fault (State φ) α

/-- `page_cache_init`. -/
def pageCacheInit (fs : φ) : State φ := ⟨treeNew, fs, []⟩

def pageCache : TreeT PageCacheKey := ⟨.treap, pageCacheKeyComp⟩

def mapGetpi (key : PageCacheKey) : Code φ Page := do
  let (page, tree) ← inside id (treeGet pageCache key .eq) (← asks State.page_cache)
  update fun s => { s with page_cache := tree }
  return page

def mapPutpi (key : PageCacheKey) (page : Page) : Code φ Page := do
  let (old, tree) ← inside id (treePut env pageCache key page) (← asks State.page_cache)
  update fun s => { s with page_cache := tree }
  return old

/-- `vnode->fs->fsops->get_page(vnode, offset)`. -/
def fsGetPage (key : PageCacheKey) : Code φ (Option Page) := do
  let (page, fs) := getPage key (← asks State.fs)
  update fun s => { s with fs := fs, reads := s.reads ++ [(key, page)] }
  return page

/-- `vnode_get_page`. -/
def vnodeGetPage (key : PageCacheKey) : Code φ (Option Page) := do
  let page ← mapGetpi key
  if page = 0 then
    match ← fsGetPage getPage key with
    | none => return none
    | some page => do
      let _ ← mapPutpi env key page
      return some page
  else return some page

/-- Calls of `vnode_get_page`, one after the other. -/
def vnodeGetPages : List PageCacheKey → Code φ (List (Option Page))
  | [] => return []
  | key :: keys => do
    let page ← vnodeGetPage env getPage key
    let pages ← vnodeGetPages keys
    return page :: pages

end Code

/-! ### The keys -/

/-- Less or equal, by vnode and offset. -/
lemma pageCacheKeyComp_nonpos (k1 k2 : PageCacheKey) : pageCacheKeyComp k1 k2 ≤ 0 ↔
    k1.vnode.toNat < k2.vnode.toNat ∨ k1.vnode.toNat = k2.vnode.toNat ∧ k1.offset.toNat ≤ k2.offset.toNat := by
  unfold pageCacheKeyComp
  simp only [BitVec.lt_def, BitVec.toNat_eq]
  split_ifs <;> omega

/-- Less, by vnode and offset. -/
lemma pageCacheKeyComp_neg (k1 k2 : PageCacheKey) : pageCacheKeyComp k1 k2 < 0 ↔
    k1.vnode.toNat < k2.vnode.toNat ∨ k1.vnode.toNat = k2.vnode.toNat ∧ k1.offset.toNat < k2.offset.toNat := by
  unfold pageCacheKeyComp
  simp only [BitVec.lt_def, BitVec.toNat_eq]
  split_ifs <;> omega

/-- The keys are ordered by vnode, those of one vnode by offset. -/
lemma pageCacheKeyComp_strict : Strict pageCacheKeyComp where
  flip a b := by
    have pos : 0 < pageCacheKeyComp b a ↔ ¬pageCacheKeyComp b a ≤ 0 := Int.not_le.symm
    rw [pos, pageCacheKeyComp_nonpos, pageCacheKeyComp_neg]
    omega
  trans a b c h1 h2 := by
    rw [pageCacheKeyComp_nonpos] at h1 h2 ⊢
    omega
  eq {a b} h := by
    have le := (pageCacheKeyComp_nonpos a b).mp (Int.le_of_eq h)
    have nlt := (pageCacheKeyComp_neg a b).not.mp (by omega)
    obtain ⟨v, o⟩ := a
    obtain ⟨v', o'⟩ := b
    simp only at le nlt
    have vnode : v = v' := BitVec.eq_of_toNat_eq (by omega)
    have offset : o = o' := BitVec.eq_of_toNat_eq (by omega)
    rw [vnode, offset]

/-! ### One read for every page -/

section Reads
variable {reads : List (PageCacheKey × Option Page)} {key : PageCacheKey} {page : Page}

/-- The result of the last read of the key that gave one. -/
def latest (reads : List (PageCacheKey × Option Page)) (key : PageCacheKey) : Option Page :=
  reads.reverse.findSome? fun read => if read.1 = key then read.2 else none

/-- The latest page of a key after one more read. -/
lemma latest_append (read : PageCacheKey × Option Page) (key : PageCacheKey) :
    latest (reads ++ [read]) key = (if read.1 = key then read.2 else none).or (latest reads key) := by
  rw [latest, List.reverse_append, List.reverse_singleton, List.singleton_append, List.findSome?_cons, latest]
  cases (if read.1 = key then read.2 else none) with
  | none => rfl
  | some page => rfl

/-- A page that was read is not read again. -/
def Once (reads : List (PageCacheKey × Option Page)) : Prop :=
  reads.Pairwise fun a b => a.1 = b.1 → a.2.getD 0 = 0

/-- Reads that failed give no page. -/
lemma Once.latest (once : Once reads) {read : PageCacheKey × Option Page} (mem : read ∈ reads)
    (nz : read.2.getD 0 ≠ 0) : latest reads read.1 = read.2 := by
  induction reads using List.reverseRecOn with
  | nil => exact absurd mem List.not_mem_nil
  | append_singleton reads last ih =>
    obtain ⟨before, -, apart⟩ := List.pairwise_append.mp once
    rw [latest_append]
    rcases List.mem_append.mp mem with mem | mem
    · have other : last.1 ≠ read.1 := fun e => nz (apart read mem last (List.mem_singleton_self last) e.symm)
      rw [if_neg other]
      exact ih before mem
    · rw [List.mem_singleton.mp mem, if_pos rfl]
      rw [List.mem_singleton.mp mem] at nz
      cases found : last.2 with
      | none =>
        rw [found] at nz
        exact absurd rfl nz
      | some page => rfl

/-- Reading a page that was not there. -/
lemma Once.append (once : Once reads) (zero : (Vfs.latest reads key).getD 0 = 0) (page : Option Page) :
    Once (reads ++ [(key, page)]) := by
  refine List.pairwise_append.mpr ⟨once, List.pairwise_singleton _ _, fun read mem last hl e => ?_⟩
  obtain rfl := List.mem_singleton.mp hl
  by_contra nz
  have same := once.latest mem nz
  rw [show read.1 = key from e] at same
  rw [← same] at nz
  exact nz zero

end Reads

section Runs
variable {φ : Type} {env : Env PageCacheKey Page} {getPage : PageCacheKey → φ → Option Page × φ} {s : State φ}

/-- The tree has what was read last, and nothing was read twice. -/
structure Cache (s : State φ) : Prop where
  tree : Table (t := pageCache) pageCacheKeyComp_strict s.page_cache (latest s.reads)
  once : Once s.reads

/-- The cache starts empty. -/
lemma cache_init (fs : φ) : Cache (pageCacheInit fs) := ⟨table_new, .nil⟩

/-- The page that a call returned for a key is what was read last, and what was read before stays. -/
structure Served (s s' : State φ) (key : PageCacheKey) (page : Option Page) : Prop where
  cache : Cache s'
  keeps : ∀ k p, latest s.reads k = some p → p ≠ 0 → latest s'.reads k = some p
  gives : ∀ p, p ≠ 0 → (page = some p ↔ latest s'.reads key = some p)

/-- The page is in the cache. -/
lemma served_hit (h : Cache s) {tree : Mem PageCacheKey Page} {key : PageCacheKey}
    (table : Table (t := pageCache) pageCacheKeyComp_strict tree (latest s.reads))
    (nz : (latest s.reads key).getD 0 ≠ 0) :
    Served s { s with page_cache := tree } key (some ((latest s.reads key).getD 0)) where
  cache := ⟨table, h.once⟩
  keeps _ _ found _ := found
  gives p _ := by
    show _ ↔ latest s.reads key = some p
    cases found : latest s.reads key with
    | none =>
      rw [found] at nz
      exact absurd rfl nz
    | some page => rfl

/-- The file system was asked. -/
lemma served_read (h : Cache s) {s' : State φ} {key : PageCacheKey} {page : Option Page}
    (table : Table (t := pageCache) pageCacheKeyComp_strict s'.page_cache (latest s'.reads))
    (zero : (latest s.reads key).getD 0 = 0) (reads : s'.reads = s.reads ++ [(key, page)]) : Served s s' key page where
  cache := ⟨table, reads ▸ h.once.append zero page⟩
  keeps k p found nz := by
    have other : key ≠ k := by
      rintro rfl
      rw [found] at zero
      exact nz zero
    rw [reads, latest_append, if_neg other]
    exact found
  gives p nz := by
    rw [reads, latest_append, if_pos rfl]
    cases page with
    | none =>
      refine iff_of_false (Option.some_ne_none p).symm fun found => ?_
      rw [show latest s.reads key = some p from found] at zero
      exact nz zero
    | some page => rfl

/-- A request is served. -/
lemma vnodeGetPage_returns (env : Env PageCacheKey Page) (getPage : PageCacheKey → φ → Option Page × φ) (h : Cache s)
    (key : PageCacheKey) : ∃ page s', Returns (vnodeGetPage env getPage key) s page s' ∧ Served s s' key page := by
  obtain ⟨tree, get, table⟩ := h.tree.get key
  have get : Returns (mapGetpi key) s ((latest s.reads key).getD 0) { s with page_cache := tree } :=
    .bind (.asks _ _) (.bind (get.inside s) (.bind (.update _ _) (.pure _ _)))
  by_cases zero : (latest s.reads key).getD 0 = 0
  · have read : Returns (fsGetPage getPage key) { s with page_cache := tree } (getPage key s.fs).1
        ⟨tree, (getPage key s.fs).2, s.reads ++ [(key, (getPage key s.fs).1)]⟩ :=
      .bind (.asks _ _) (.bind (.update _ _) (.pure _ _))
    cases found : (getPage key s.fs).1 with
    | none =>
      rw [found] at read
      refine ⟨none, _, .bind get (.ite_pos zero (.bind read (.pure _ _))), served_read h ?_ zero rfl⟩
      have same : latest (s.reads ++ [(key, none)]) = latest s.reads := by
        funext k
        rw [latest_append, ite_self]
        rfl
      rw [same]
      exact table
    | some page =>
      rw [found] at read
      obtain ⟨tree', put, table'⟩ := table.put env key page
      have put : Returns (mapPutpi env key page) ⟨tree, (getPage key s.fs).2, s.reads ++ [(key, some page)]⟩
          ((latest s.reads key).getD 0) ⟨tree', (getPage key s.fs).2, s.reads ++ [(key, some page)]⟩ :=
        .bind (.asks _ _) (.bind (put.inside _) (.bind (.update _ _) (.pure _ _)))
      refine ⟨some page, _, .bind get (.ite_pos zero (.bind read (.bind put (.pure _ _)))), served_read h ?_ zero rfl⟩
      have same : latest (s.reads ++ [(key, some page)]) = Function.update (latest s.reads) key (some page) := by
        funext k
        rw [latest_append, Function.update_apply]
        by_cases e : k = key
        · rw [if_pos e.symm, if_pos e]
          rfl
        · rw [if_neg (Ne.symm e), if_neg e]
          rfl
      rw [same]
      exact table'
  · exact ⟨some _, _, .bind get (.ite_neg zero (.pure _ _)), served_hit h table zero⟩

/-- All requests for a page that was read return it, and so do all requests for a page after one that returned it. -/
structure Stable (s : State φ) (keys : List PageCacheKey) (pages : List (Option Page)) : Prop where
  known : ∀ (k : PageCacheKey) (p : Page) (i : Nat), latest s.reads k = some p → p ≠ 0 → keys[i]? = some k →
    pages[i]? = some (some p)
  later : ∀ (k : PageCacheKey) (p : Page) (i j : Nat), i ≤ j → keys[i]? = some k → keys[j]? = some k → p ≠ 0 →
    pages[i]? = some (some p) → pages[j]? = some (some p)

/-- A list of requests, one at a time. -/
lemma Stable.cons {s' : State φ} {key : PageCacheKey} {page : Option Page} {keys : List PageCacheKey}
    {pages : List (Option Page)} (served : Served s s' key page) (h : Stable s' keys pages) :
    Stable s (key :: keys) (page :: pages) where
  known k p i found nz hi := by
    have found := served.keeps k p found nz
    cases i with
    | zero =>
      cases hi
      exact congrArg some ((served.gives p nz).mpr found)
    | succ i => exact h.known k p i found nz hi
  later k p i j le hi hj nz reply := by
    cases j with
    | zero =>
      obtain rfl := Nat.le_zero.mp le
      exact reply
    | succ j =>
      cases i with
      | zero =>
        cases hi
        exact h.known key p j ((served.gives p nz).mp (Option.some.inj reply)) nz hj
      | succ i => exact h.later k p i j (Nat.le_of_succ_le_succ le) hi hj nz reply

/-- Requests are served one after the other. -/
lemma vnodeGetPages_returns (env : Env PageCacheKey Page) (getPage : PageCacheKey → φ → Option Page × φ) (h : Cache s)
    (keys : List PageCacheKey) : ∃ pages s', Returns (vnodeGetPages env getPage keys) s pages s' ∧ Cache s' ∧
      Stable s keys pages := by
  induction keys generalizing s with
  | nil =>
    have none : ∀ {a : PageCacheKey} {i : Nat}, ([] : List PageCacheKey)[i]? ≠ some a := fun h =>
      Option.some_ne_none _ (h.symm.trans List.getElem?_nil)
    exact ⟨[], s, .pure _ _, h, ⟨fun _ _ _ _ _ hi => absurd hi none, fun _ _ _ _ _ hi => absurd hi none⟩⟩
  | cons key keys ih =>
    obtain ⟨page, s1, run, served⟩ := vnodeGetPage_returns env getPage h key
    obtain ⟨pages, s', rest, h', stable⟩ := ih served.cache
    exact ⟨page :: pages, s', .bind run (.bind rest (.pure _ _)), h', stable.cons served⟩

/-- For any requests of pages, from the empty cache on: a page that a file system gave is not read again, and all later
    requests for it return the same one. -/
theorem page_cache (env : Env PageCacheKey Page) (getPage : PageCacheKey → φ → Option Page × φ) (fs : φ)
    (keys : List PageCacheKey) : ∃ (pages : List (Option Page)) (s' : State φ),
      Returns (vnodeGetPages env getPage keys) (pageCacheInit fs) pages s' ∧ Once s'.reads ∧
      ∀ (k : PageCacheKey) (p : Page) (i j : Nat), i ≤ j → keys[i]? = some k → keys[j]? = some k → p ≠ 0 →
        pages[i]? = some (some p) → pages[j]? = some (some p) := by
  obtain ⟨pages, s', run, h, stable⟩ := vnodeGetPages_returns env getPage (cache_init fs) keys
  exact ⟨pages, s', run, h.once, stable.later⟩

end Runs

end Twcos.Vfs
