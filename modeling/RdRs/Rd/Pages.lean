/-
  `list_torrents` and `list_all_torrents` of `rd/api/methods.rs` — the list of torrents, page by page.

  The first page says how many torrents there are; the other pages are fetched by one task each and
  their results come in the order in which the tasks finish.  That order, the answer of each request
  and a task that does not come to its end are decided outside (`Remote`).

  * `joinPages_eq_ok_iff` — the loop over the finished tasks goes through exactly when each of them
    has brought its page;
  * `sorted_pages` — sorting by page number undoes the order of arrival;
  * `flatMap_pageOf` — consecutive pages are a stretch of the list.

  Of an `anyhow` error only the outermost text is kept, as it is the one that is shown.
-/
import RdRs.Config
import RdRs.Rd.Types

set_option linter.unusedVariables false

namespace RdRs.Rd

/-! ## One page -/

/-- What `list_torrents` looks at in a response: the status, the header `x-total-count` if it is
    there and readable as text, and what decoding the body gives. -/
structure ListResponse where
  status : Nat
  xTotalCount : Option String
  body : Except String (List Torrent)

/-- `str::parse::<u32>` -/
def parseU32 (s : List Char) : Option Nat :=
  match parseU64 s with
  | some n => if n < 2 ^ 32 then some n else none
  | none => none

/-- `list_torrents`, from what `execute` gives. -/
def listTorrents : Except RdError ListResponse → Except String (List Torrent × Nat)
  | .error _ => .error "list_torrents"
  | .ok r =>
    if r.status = 204 then .ok ([], 0)
    else
      let total := (r.xTotalCount.bind fun s => parseU32 s.toList).getD 0
      match r.body with
      | .error _ => .error "list_torrents: decode"
      | .ok torrents => .ok (torrents, total)

/-! ## All pages -/

/-- What is decided outside: what `execute` gives for a page and a limit, the text of the error of a
    task that does not come to its end, and the order in which tasks finish. -/
structure Remote where
  execute : Nat → Nat → Except RdError ListResponse
  joinError : Nat → Option String
  finish : List Nat → List Nat
  finish_perm : ∀ pages, (finish pages).Perm pages

/-- `u32::div_ceil` -/
def divCeil (n m : Nat) : Nat := if 0 < n % m then n / m + 1 else n / m

/-- What `join_next` gives for the task of a page. -/
def pageTask (rt : Remote) (pageSize page : Nat) : Except String (Except String (Nat × List Torrent)) :=
  match rt.joinError page with
  | some text => .error text
  | none => .ok ((listTorrents (rt.execute page pageSize)).map fun r => (page, r.1))

/-- The loop over the tasks as they finish, from the results so far. -/
def joinPages : List (Except String (Except String (Nat × List Torrent))) → List (Nat × List Torrent) →
    Except String (List (Nat × List Torrent))
  | [], results => .ok results
  | .ok (.ok result) :: rest, results => joinPages rest (results ++ [result])
  | .ok (.error e) :: _, _ => .error e
  | .error text :: _, _ => .error ("Join error fetching torrents: " ++ text)

/-- `pages_results.sort_by_key(|(p, _)| *p)` -/
def sortByPage (results : List (Nat × List Torrent)) : List (Nat × List Torrent) :=
  results.mergeSort fun a b => decide (a.1 ≤ b.1)

/-- The pages that are left to the tasks. -/
def spawnedPages (totalPages : Nat) : List Nat := List.range' 2 (totalPages - 1)

/-- `list_all_torrents` -/
def listAllTorrents (rt : Remote) (pageSize : Nat) : Except String (List Torrent) :=
  match listTorrents (rt.execute 1 pageSize) with
  | .error e => .error e
  | .ok (firstPage, total) =>
    let totalPages := divCeil total (max pageSize 1)
    if total = 0 ∨ totalPages ≤ 1 then .ok firstPage
    else
      match joinPages ((rt.finish (spawnedPages totalPages)).map (pageTask rt pageSize)) [] with
      | .error e => .error e
      | .ok results => .ok (firstPage ++ (sortByPage results).flatMap Prod.snd)

/-! ## The number of torrents, as text and back -/

/-- Reading what is written. -/
theorem parseU64_toDigits {n : Nat} (h : n < 2 ^ 64) : parseU64 (Nat.toDigits 10 n) = some n := by
  have hdigits : (Nat.toDigits 10 n).all Char.isDigit = true := List.all_eq_true.mpr fun c hc =>
    Nat.isDigit_of_mem_toDigits (by decide) (by decide) hc
  have hvalue : Nat.ofDigitChars 10 (Nat.toDigits 10 n) 0 = n := Nat.ofDigitChars_ten_toDigits
  have hread := parseU64_digits Nat.toDigits_ne_nil hdigits (by rw [hvalue]; exact h)
  rwa [hvalue] at hread

theorem parseU32_toString {n : Nat} (h : n < 2 ^ 32) : parseU32 (toString n).toList = some n := by
  have hn : n < 2 ^ 64 := by omega
  rw [parseU32, Nat.toString_eq_ofList_toDigits, String.toList_ofList, parseU64_toDigits hn]
  exact if_pos h

/-! ## Pages of a list -/

/-- Elements `(page - 1) * limit` to `page * limit`. -/
def pageOf {α : Type} (l : List α) (limit page : Nat) : List α :=
  (l.drop ((page - 1) * limit)).take limit

/-- Consecutive pages are a stretch of the list. -/
theorem flatMap_pageOf {α : Type} (l : List α) (limit : Nat) : ∀ n a : Nat, 1 ≤ a →
    (List.range' a n).flatMap (pageOf l limit) = (l.drop ((a - 1) * limit)).take (n * limit)
  | 0, a, _ => by simp
  | n + 1, a, ha => by
    have hnext : (a + 1 - 1) * limit = (a - 1) * limit + limit := by
      rw [Nat.add_sub_cancel, ← Nat.add_one_mul]
      congr 1
      omega
    rw [List.range'_succ, List.flatMap_cons, flatMap_pageOf l limit n (a + 1) (by omega), hnext,
      pageOf, ← List.drop_drop, ← List.take_add, Nat.add_one_mul, Nat.add_comm limit]

/-- Rounded up, the pages cover the list. -/
theorem le_divCeil_mul (n : Nat) {k : Nat} (hk : 1 ≤ k) : n ≤ divCeil n k * k := by
  have hdiv := Nat.div_add_mod n k
  have hmod := Nat.mod_lt n hk
  rw [Nat.mul_comm] at hdiv
  unfold divCeil
  split
  · rw [Nat.add_one_mul]
    omega
  · omega

/-! ## The finished tasks -/

/-- **The loop goes through exactly when every task has brought its page.** -/
theorem joinPages_eq_ok_iff : ∀ (tasks : List (Except String (Except String (Nat × List Torrent))))
    (results res : List (Nat × List Torrent)),
    joinPages tasks results = .ok res ↔
      ∃ rs, tasks = rs.map (fun r => .ok (.ok r)) ∧ res = results ++ rs
  | [], results, res => by
    rw [joinPages, Except.ok.injEq]
    constructor
    · rintro rfl
      exact ⟨[], rfl, (List.append_nil _).symm⟩
    · rintro ⟨rs, hrs, rfl⟩
      rw [List.map_eq_nil_iff.mp hrs.symm, List.append_nil]
  | task :: tasks, results, res => by
    have hbad : (∀ r, task ≠ .ok (.ok r)) →
        ¬ ∃ rs, task :: tasks = rs.map (fun r => .ok (.ok r)) ∧ res = results ++ rs := by
      rintro hne ⟨rs, hrs, -⟩
      obtain ⟨r, rs', -, hr, -⟩ := List.map_eq_cons_iff.mp hrs.symm
      exact hne r hr.symm
    match task with
    | .error text =>
      rw [joinPages]
      exact iff_of_false (by simp) (hbad (by simp))
    | .ok (.error e) =>
      rw [joinPages]
      exact iff_of_false (by simp) (hbad (by simp))
    | .ok (.ok r) =>
      rw [joinPages, joinPages_eq_ok_iff tasks]
      constructor
      · rintro ⟨rs, rfl, rfl⟩
        exact ⟨r :: rs, rfl, List.append_assoc ..⟩
      · rintro ⟨rs, hrs, rfl⟩
        obtain ⟨r', rs', rfl, hr, htasks⟩ := List.map_eq_cons_iff.mp hrs.symm
        obtain rfl : r' = r := Except.ok.inj (Except.ok.inj hr)
        exact ⟨rs', htasks.symm, List.append_cons ..⟩

/-- **Sorting by page number undoes the order of arrival.** -/
theorem sorted_pages (content : Nat → List Torrent) {arrived pages : List Nat}
    (hperm : arrived.Perm pages) (hpages : pages.Pairwise (· < ·)) :
    sortByPage (arrived.map fun page => (page, content page)) =
      pages.map fun page => (page, content page) := by
  have hsorted : (sortByPage (arrived.map fun page => (page, content page))).Pairwise
      fun a b => decide (a.1 ≤ b.1) = true :=
    List.pairwise_mergeSort
      (fun a b c hab hbc => by simp only [decide_eq_true_eq] at *; omega)
      (fun a b => by simp only [Bool.or_eq_true, decide_eq_true_eq]; omega) _
  have hback := (List.mergeSort_perm (arrived.map fun page => (page, content page))
    fun a b => decide (a.1 ≤ b.1)).trans (hperm.map _)
  refine List.Perm.eq_of_pairwise ?_ hsorted ?_ hback
  · -- among the results, the page number tells which one it is
    intro a b ha hb hab hba
    obtain ⟨p, -, rfl⟩ := List.mem_map.mp (hback.mem_iff.mp ha)
    obtain ⟨q, -, rfl⟩ := List.mem_map.mp hb
    simp only [decide_eq_true_eq] at hab hba
    rw [show p = q by omega]
  · rw [List.pairwise_map]
    exact hpages.imp fun hlt => decide_eq_true hlt.le

/-! ## A server with a fixed list -/

/-- The answer to a request for a page of the fixed list `l`. -/
def Serves (l : List Torrent) (limit page : Nat) (answer : Except RdError ListResponse) : Prop :=
  ∃ r, answer = .ok r ∧
    if l = [] then r.status = 204
    else r.status ≠ 204 ∧ r.xTotalCount = some (toString l.length) ∧ r.body = .ok (pageOf l limit page)

/-- The request for a page fails: `list_torrents` returns an error, or the page has a task, which
    does not come to its end. -/
def PageFails (rt : Remote) (limit page : Nat) : Prop :=
  (∃ e, listTorrents (rt.execute page limit) = .error e) ∨ (1 < page ∧ rt.joinError page ≠ none)

/-- The pages of the list; the first one is always asked for. -/
def requestedPages (l : List Torrent) (limit : Nat) : List Nat :=
  List.range' 1 (max 1 (divCeil l.length limit))

/-- The first page stands alone, or the rest is what the tasks get. -/
theorem requestedPages_eq (l : List Torrent) {limit : Nat} (h : 1 < divCeil l.length limit) :
    requestedPages l limit = 1 :: spawnedPages (divCeil l.length limit) := by
  have hlen : divCeil l.length limit = divCeil l.length limit - 1 + 1 := by omega
  rw [requestedPages, max_eq_right h.le, spawnedPages]
  nth_rewrite 1 [hlen]
  exact List.range'_succ

/-- What `list_torrents` makes of the server's answer. -/
theorem listTorrents_of_serves {l : List Torrent} {limit page : Nat}
    {answer : Except RdError ListResponse} (hl : l.length < 2 ^ 32) (h : Serves l limit page answer) :
    listTorrents answer = .ok (pageOf l limit page, l.length) := by
  obtain ⟨r, rfl, hr⟩ := h
  rw [listTorrents]
  by_cases hnil : l = []
  · rw [if_pos hnil] at hr
    rw [if_pos hr, hnil, pageOf, List.drop_nil, List.take_nil, List.length_nil]
  · rw [if_neg hnil] at hr
    obtain ⟨hstatus, hcount, hbody⟩ := hr
    simp only [if_neg hstatus, hcount, hbody, Option.bind_some, parseU32_toString hl,
      Option.getD_some]

variable {rt : Remote} {l : List Torrent} {k : Nat}

/-- The task of a page that is served. -/
theorem pageTask_of_serves {page : Nat} (hl : l.length < 2 ^ 32)
    (h : Serves l k page (rt.execute page k)) (hjoin : rt.joinError page = none) :
    pageTask rt k page = .ok (.ok (page, pageOf l k page)) := by
  rw [pageTask, hjoin, listTorrents_of_serves hl h]
  rfl

/-- The task of a page whose request fails. -/
theorem pageTask_of_fails {page : Nat} (h : PageFails rt k page) (r : Nat × List Torrent) :
    pageTask rt k page ≠ .ok (.ok r) := by
  rw [pageTask]
  cases hjoin : rt.joinError page with
  | some text => simp
  | none =>
    rcases h with ⟨e, he⟩ | ⟨-, hne⟩
    · rw [he]
      simp [Except.map]
    · exact absurd hjoin hne

/-- With the first page, the server has said how many there are. -/
theorem listAllTorrents_of_first (hl : l.length < 2 ^ 32) (hk : 1 ≤ k)
    (hfirst : Serves l k 1 (rt.execute 1 k)) :
    listAllTorrents rt k =
      if divCeil l.length k ≤ 1 then .ok l
      else
        match joinPages ((rt.finish (spawnedPages (divCeil l.length k))).map (pageTask rt k)) [] with
        | .error e => .error e
        | .ok results => .ok (pageOf l k 1 ++ (sortByPage results).flatMap Prod.snd) := by
  rw [listAllTorrents, listTorrents_of_serves hl hfirst, max_eq_left hk]
  have hzero : l.length = 0 → divCeil l.length k ≤ 1 := by
    intro h
    rw [h, divCeil, Nat.zero_mod, Nat.zero_div]
    exact Nat.zero_le 1
  by_cases hone : divCeil l.length k ≤ 1
  · have hcover : l.length ≤ k := by
      have hmul := Nat.mul_le_mul_right k hone
      have hle := le_divCeil_mul l.length hk
      omega
    have hpage : pageOf l k 1 = l := by
      rw [pageOf, Nat.sub_self, Nat.zero_mul, List.drop_zero, List.take_of_length_le hcover]
    rw [if_pos hone, hpage]
    exact if_pos (Or.inr hone)
  · rw [if_neg hone]
    exact if_neg fun h => h.elim (fun h0 => hone (hzero h0)) hone

/-- Pages that are all served, put together. -/
theorem listAllTorrents_served (hl : l.length < 2 ^ 32) (hk : 1 ≤ k)
    (hserve : ∀ page ∈ requestedPages l k, Serves l k page (rt.execute page k))
    (hjoin : ∀ page, 1 < page → page ∈ requestedPages l k → rt.joinError page = none) :
    listAllTorrents rt k = .ok l := by
  have hmem : 1 ∈ requestedPages l k := List.mem_range'_1.mpr ⟨le_rfl, by omega⟩
  rw [listAllTorrents_of_first hl hk (hserve 1 hmem)]
  by_cases hone : divCeil l.length k ≤ 1
  · exact if_pos hone
  · rw [if_neg hone]
    rw [requestedPages_eq l (Nat.lt_of_not_le hone)] at hserve hjoin
    have hperm := rt.finish_perm (spawnedPages (divCeil l.length k))
    have htasks : (rt.finish (spawnedPages (divCeil l.length k))).map (pageTask rt k) =
        ((rt.finish (spawnedPages (divCeil l.length k))).map fun page =>
          (page, pageOf l k page)).map fun r => .ok (.ok r) := by
      rw [List.map_map]
      refine List.map_congr_left fun page hpage => ?_
      have hspawned := hperm.mem_iff.mp hpage
      have hmem := List.mem_cons_of_mem 1 hspawned
      exact pageTask_of_serves hl (hserve page hmem)
        (hjoin page (List.mem_range'_1.mp hspawned).1 hmem)
    have hjoined := (joinPages_eq_ok_iff _ [] _).mpr ⟨_, htasks, rfl⟩
    have hsorted := sorted_pages (pageOf l k) hperm List.pairwise_lt_range'
    rw [hjoined]
    dsimp only
    rw [List.nil_append, hsorted, List.flatMap_map]
    -- the first page and the sorted ones are the pages 1, 2, …
    have hall := flatMap_pageOf l k (divCeil l.length k) 1 le_rfl
    have hcover := le_divCeil_mul l.length hk
    have hsplit : List.range' 1 (divCeil l.length k) =
        1 :: spawnedPages (divCeil l.length k) := by
      rw [← requestedPages_eq l (Nat.lt_of_not_le hone), requestedPages, max_eq_right (by omega)]
    rw [hsplit, List.flatMap_cons, Nat.sub_self, Nat.zero_mul, List.drop_zero,
      List.take_of_length_le hcover] at hall
    exact congrArg Except.ok hall

/-- A page that fails fails the whole list. -/
theorem listAllTorrents_failed (hl : l.length < 2 ^ 32) (hk : 1 ≤ k)
    (hserver : ∀ page ∈ requestedPages l k,
      Serves l k page (rt.execute page k) ∨ PageFails rt k page)
    {page : Nat} (hpage : page ∈ requestedPages l k) (hfails : PageFails rt k page) :
    ∃ e, listAllTorrents rt k = .error e := by
  have hmem : 1 ∈ requestedPages l k := List.mem_range'_1.mpr ⟨le_rfl, by omega⟩
  rcases hserver 1 hmem with hfirst | ⟨e, he⟩ | ⟨hlt, -⟩
  · have hne : page ≠ 1 := by
      rintro rfl
      rcases hfails with ⟨e, he⟩ | ⟨hlt, -⟩
      · rw [listTorrents_of_serves hl hfirst] at he
        cases he
      · omega
    rw [listAllTorrents_of_first hl hk hfirst]
    by_cases hone : divCeil l.length k ≤ 1
    · rw [requestedPages, max_eq_left hone, List.range'_one, List.mem_singleton] at hpage
      exact absurd hpage hne
    · rw [if_neg hone]
      rw [requestedPages_eq l (Nat.lt_of_not_le hone)] at hpage
      have hspawned := (List.mem_cons.mp hpage).resolve_left hne
      have hfinish := (rt.finish_perm _).mem_iff.mpr hspawned
      cases hjoin : joinPages
          ((rt.finish (spawnedPages (divCeil l.length k))).map (pageTask rt k)) [] with
      | error e => exact ⟨e, rfl⟩
      | ok results =>
        obtain ⟨rs, hrs, -⟩ := (joinPages_eq_ok_iff _ _ _).mp hjoin
        have htask := List.mem_map_of_mem (f := pageTask rt k) hfinish
        rw [hrs] at htask
        obtain ⟨r, -, hr⟩ := List.mem_map.mp htask
        exact absurd hr.symm (pageTask_of_fails hfails r)
  · exact ⟨e, by rw [listAllTorrents, he]⟩
  · omega

/-- **The full list is independent of the order in which pages arrive**: with a server that answers
    from a fixed list, pages that are all served give the list, in order and each torrent once, and a
    page that fails gives an error. -/
theorem listAllTorrents_spec (rt : Remote) (l : List Torrent) (k : Nat) (hl : l.length < 2 ^ 32)
    (hk : 1 ≤ k)
    (hserver : ∀ page ∈ requestedPages l k,
      Serves l k page (rt.execute page k) ∨ PageFails rt k page) :
    ((∀ page ∈ requestedPages l k, ¬ PageFails rt k page) → listAllTorrents rt k = .ok l) ∧
    ((∃ page ∈ requestedPages l k, PageFails rt k page) → ∃ e, listAllTorrents rt k = .error e) := by
  constructor
  · intro hok
    refine listAllTorrents_served hl hk (fun page hpage => ?_) fun page hlt hpage => ?_
    · exact (hserver page hpage).resolve_right (hok page hpage)
    · by_contra hne
      exact hok page hpage (Or.inr ⟨hlt, hne⟩)
  · rintro ⟨page, hpage, hfails⟩
    exact listAllTorrents_failed hl hk hserver hpage hfails

/-- A torrent to have a list of. -/
def someTorrent (id : String) : Torrent := ⟨id, id, id, 100, "downloaded", [], 0⟩

/-- A server that answers from the list `l`, the tasks finishing last page first. -/
def serverOf (l : List Torrent) : Remote where
  execute page limit := .ok ⟨200, some (toString l.length), .ok (pageOf l limit page)⟩
  joinError _ := none
  finish := List.reverse
  finish_perm := List.reverse_perm

/-- It serves, as long as the list is not empty. -/
theorem serverOf_serves {l : List Torrent} (h : l ≠ []) (k page : Nat) :
    Serves l k page ((serverOf l).execute page k) := by
  refine ⟨_, rfl, ?_⟩
  rw [if_neg h]
  exact ⟨show (200 : Nat) ≠ 204 by decide, rfl, rfl⟩

/-- No page of it fails. -/
theorem serverOf_ok {l : List Torrent} (h : l ≠ []) (hl : l.length < 2 ^ 32) (k page : Nat) :
    ¬ PageFails (serverOf l) k page := by
  rintro (⟨e, he⟩ | ⟨-, hne⟩)
  · rw [listTorrents_of_serves hl (serverOf_serves h k page)] at he
    cases he
  · exact hne rfl

/-- Five torrents in pages of two, the third page before the second. -/
theorem listAllTorrents_spec_five :
    listAllTorrents (serverOf (["a", "b", "c", "d", "e"].map someTorrent)) 2 =
      .ok (["a", "b", "c", "d", "e"].map someTorrent) :=
  (listAllTorrents_spec _ _ 2 (by decide) (by decide) fun page _ =>
    Or.inl (serverOf_serves (by decide) 2 page)).1
      fun page _ => serverOf_ok (by decide) (by decide) 2 page

end RdRs.Rd
