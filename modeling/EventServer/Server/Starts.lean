import Mathlib.Algebra.BigOperators.Group.Finset.Basic
import Mathlib.Data.Fintype.BigOperators
import EventServer.Server.Requests

/-
  Clients that start their sessions at the same time.

  Without signals `extract_requests` cuts what is in the pipe into frames of an op code and two
  paths (`setups`), wherever the clients' writes begin and end. If every client makes its three
  writes in a row, the frames are the clients' messages; otherwise the first client that does not
  has the op code of another one in its paths, and the request made of it is not its own, or
  there are too few (`starts_iff`).
-/

namespace EventServer

open Lib Client

/-! ## What the server makes of the bytes -/

/-- The pairs of paths that `extract_requests` takes from the bytes when no signal comes, after
    skipping `k` bytes; at a frame that is cut off or has no NUL in a path it stops. -/
def setups : Nat → Bytes → List (Bytes × Bytes)
  | _, [] => []
  | k + 1, _ :: bs => setups k bs
  | 0, op_code :: bs =>
    if op_code = 1 then
      if 2 * MAX_PATH ≤ bs.length then
        match snprintf (bs.take MAX_PATH), snprintf ((bs.drop MAX_PATH).take MAX_PATH) with
        | some p, some q => (p, q) :: setups (2 * MAX_PATH) bs
        | _, _ => []
      else []
    else setups 0 bs

theorem setups_drop : ∀ (k : Nat) (bs : Bytes), setups k bs = setups 0 (bs.drop k)
  | 0, bs => by rw [List.drop_zero]
  | k + 1, [] => by simp [setups]
  | k + 1, b :: bs => by rw [setups, setups_drop k bs, List.drop_succ_cons]

/-- Every pair takes a frame of its own. -/
theorem length_setups : ∀ (k : Nat) (bs : Bytes),
    (setups k bs).length * messageSize ≤ bs.length - k
  | _, [] => by simp [setups]
  | k + 1, b :: bs => by
      have := length_setups k bs
      rw [setups, List.length_cons]
      omega
  | 0, op_code :: bs => by
      have hnext := length_setups 0 bs
      have hframe := length_setups (2 * MAX_PATH) bs
      rw [setups, List.length_cons]
      split
      · split
        · split
          · rw [List.length_cons, Nat.succ_mul]
            simp only [messageSize] at hframe ⊢
            omega
          · simp
        · simp
      · omega

variable {server_pipe_path : Bytes} {x : Extractor}

/-- The request for a pair of paths. -/
def requestOf (server_pipe_path : Bytes) (paths : Bytes × Bytes) : Request :=
  ⟨-1, paths.1, paths.2, server_pipe_path⟩

/-- A round in which no signal comes and nothing fails. -/
structure Round.Quiet (ρ : Round) : Prop where
  calm : Calm ρ.turns
  signal : ρ.signal = false
  create : ρ.create = true
  join : ρ.join = true

theorem Round.Quiet.reliable {ρ : Round} (h : ρ.Quiet) : ρ.Reliable where
  reads hm := by
    obtain ⟨n, hn⟩ := h.calm _ hm
    cases hn
  create := h.create
  join := h.join

theorem myRead_calm_ret {r : Reader} (h : Calm r.turns) (size : UInt64) :
    (myRead r size).ret ≠ some (-2) ∧ Calm (myRead r size).reader.turns ∧
      (myRead r size).reader.printFlag = r.printFlag := by
  obtain ⟨ts, hts, -, hread⟩ := myRead_calm h size
  rw [hread]
  refine ⟨?_, hts, rfl⟩
  dsimp only
  split
  · intro hret
    have := Option.some.inj hret
    omega
  · exact fun hret => nomatch hret

theorem undisturbed_of_quiet {ρ : Round} (h : ρ.Quiet) (hflag : x.server_fd.printFlag = false) :
    Undisturbed x ρ := by
  obtain ⟨-, hcalm, hflag'⟩ := myRead_calm_ret (r := { x.server_fd with turns := ρ.turns }) h.calm 1
  obtain ⟨hret, hcalm', -⟩ := myRead_calm_ret hcalm (UInt64.ofNat MAX_PATH)
  exact fun _ => ⟨hflag'.trans hflag, h.signal, fun _ => ⟨hret, (myRead_calm_ret hcalm' _).1⟩⟩

/-- What is inserted and what will be, as long as no signal comes. -/
structure Expects (server_pipe_path : Bytes) (paths : List (Bytes × Bytes)) (x : Extractor) :
    Prop where
  eof : x.server_fd.eof = false
  printFlag : x.server_fd.printFlag = false
  inserted : x.inserted ++ (if x.stopped = none then
    (setups 0 x.server_fd.bytes).map (requestOf server_pipe_path) else []) =
    paths.map (requestOf server_pipe_path)

theorem Expects.keep {paths : List (Bytes × Bytes)} {ρ : Round} {x' : Extractor}
    (h : Expects server_pipe_path paths x) (hρ : ρ.Quiet) (hs : x.stopped = none)
    (hdoes : Does server_pipe_path ρ x x') : Expects server_pipe_path paths x' := by
  have hinserted := h.inserted
  rw [if_pos hs] at hinserted
  refine ⟨hdoes.eof, hdoes.quiet h.printFlag hρ.calm hρ.signal, ?_⟩
  cases hdoes with
  | waits hbytes _ h' =>
    rw [h'.inserted, if_neg (by simp [h'.stopped]), ← hinserted, hbytes]
    simp [setups]
  | interrupted _ h' =>
    rw [h'.inserted, if_pos h'.stopped, h'.bytes, List.append_nil, hinserted]
  | prints _ hdisturbed _ => exact absurd (undisturbed_of_quiet hρ h.printFlag) hdisturbed
  | skips hbytes hop _ h' =>
    rw [h'.inserted, if_pos h'.stopped, h'.bytes, List.append_nil, ← hinserted, hbytes, setups,
      if_neg hop]
  | short hbytes hlen h' =>
    rw [h'.inserted, if_neg (by simp [h'.stopped]), ← hinserted, hbytes, setups, if_pos rfl,
      if_neg (by omega)]
    simp
  | @reads bs hbytes k k' _ _ hlen hfull h' =>
    obtain ⟨rfl, rfl⟩ := hfull.1 (undisturbed_of_quiet hρ h.printFlag)
    rw [overwrite_of_length _ (by rw [List.length_take]; omega), overwrite_of_length _
      (by rw [List.length_take, List.length_drop]; omega)] at h'
    have hlen' : 2 * MAX_PATH ≤ bs.length := by omega
    rw [← hinserted, hbytes, setups]
    cases hp : snprintf (bs.take MAX_PATH) with
    | none =>
      rw [copied, hp] at h'
      rw [h'.inserted, if_neg (by simp [h'.stopped])]
      simp [hlen']
    | some p =>
      cases hq : snprintf ((bs.drop MAX_PATH).take MAX_PATH) with
      | none =>
        rw [copied, hp, hq] at h'
        rw [h'.inserted, if_neg (by simp [h'.stopped])]
        simp [hlen']
      | some q =>
        rw [copied, hp, hq] at h'
        rw [h'.inserted, if_pos h'.stopped, h'.bytes, ← Nat.two_mul, ← setups_drop]
        simp [hlen', requestOf]

/-- **Without signals the server inserts the requests of `setups`.** -/
theorem inserted_of_quiet {bs : Bytes} {x₀ : Extractor} {ρs : List Round}
    (hstart : Awaits bs x₀) (hflag : x₀.server_fd.printFlag = false)
    (hρs : ∀ ρ ∈ ρs, ρ.Quiet) (hrun : exec (extractStep server_pipe_path) x₀ ρs = some x)
    (hthrough : Through x) :
    x.inserted = (setups 0 bs).map (requestOf server_pipe_path) := by
  have hend := exec_invariant_of (I := Expects server_pipe_path (setups 0 bs)) (A := Round.Quiet)
    (fun x ρ x' hρ h hstep => ?_) hρs
    ⟨hstart.eof, hflag, by simp [hstart.stopped, hstart.inserted, hstart.bytes]⟩ hrun
  · have := hend.inserted
    obtain hbytes | hstopped := hthrough
    · simpa [hbytes, setups] using this
    · simpa [hstopped] using this
  · obtain ⟨hs, rfl⟩ := extractStep_eq_some hstep
    exact h.keep hρ hs (extractRound_does server_pipe_path h.eof hs hρ.reliable)

/-! ## What the clients put into the pipe -/

section Chunks

variable {ι : Type} [DecidableEq ι] {clients : ι → Setup}

/-- Each client has made some of its calls. -/
def Partway (clients : ι → Setup) (todo : ι → List Bytes) : Prop :=
  ∀ i, todo i <:+ (clients i).writes

/-- The clients in `U` have everything to write, the others nothing. -/
def pending (clients : ι → Setup) (U : Finset ι) (i : ι) : List Bytes :=
  if i ∈ U then (clients i).writes else []

omit [DecidableEq ι] in
/-- The next call of a client: its op code with two paths to come, or a path. -/
theorem partway_cases {todo : ι → List Bytes} (h : Partway clients todo) {i : ι} {buffer : Bytes}
    {rest : List Bytes} (htodo : todo i = buffer :: rest) :
    (buffer = [1] ∧ rest ≠ []) ∨ ∃ p : PipePath, buffer = p.field := by
  have hsuffix := h i
  rw [htodo, Setup.writes] at hsuffix
  rw [List.suffix_cons_iff, List.suffix_cons_iff, List.suffix_cons_iff, List.suffix_nil] at hsuffix
  obtain heq | heq | heq | heq := hsuffix
  · obtain ⟨rfl, rfl⟩ := List.cons.inj heq
    exact Or.inl ⟨rfl, by simp⟩
  · exact Or.inr ⟨_, (List.cons.inj heq).1⟩
  · exact Or.inr ⟨_, (List.cons.inj heq).1⟩
  · cases heq

theorem Partway.update {todo : ι → List Bytes} (h : Partway clients todo) {i : ι} {buffer : Bytes}
    {rest : List Bytes} (htodo : todo i = buffer :: rest) :
    Partway clients (Function.update todo i rest) := by
  intro j
  by_cases hj : j = i
  · subst hj
    rw [Function.update_self]
    exact (List.suffix_cons buffer rest).trans (htodo ▸ h j)
  · rw [Function.update_of_ne hj]
    exact h j

/-- As long as some client is not finished, a path comes, after some op codes. -/
theorem chunks_lead : ∀ {order : List ι} {todo : ι → List Bytes}, Partway clients todo →
    Finishes todo order → (∃ i, todo i ≠ []) → ∃ (j : Nat) (p : PipePath) (more : Bytes),
      (chunks todo order).flatten = List.replicate j 1 ++ (p.field ++ more)
  | [], todo, _, hfin, ⟨i, hi⟩ => absurd (hfin i) hi
  | i :: order, todo, hpart, hfin, _ => by
      obtain ⟨buffer, rest, htodo, hfin'⟩ := hfin
      simp only [chunks, htodo, List.flatten_cons]
      obtain ⟨rfl, hrest⟩ | ⟨p, rfl⟩ := partway_cases hpart htodo
      · obtain ⟨j, p, more, heq⟩ := chunks_lead (hpart.update htodo) hfin'
          ⟨i, by rwa [Function.update_self]⟩
        exact ⟨j + 1, p, more, by rw [heq, List.replicate_succ]; rfl⟩
      · exact ⟨0, p, _, rfl⟩

/-- The pipe gets everything that is still to be written. -/
theorem length_chunks [Fintype ι] : ∀ {order : List ι} {todo : ι → List Bytes},
    Finishes todo order → (chunks todo order).flatten.length = ∑ i, (todo i).flatten.length
  | [], todo, hfin => by
      have hnil : ∀ i, todo i = [] := hfin
      simp [chunks, hnil]
  | i :: order, todo, ⟨buffer, rest, htodo, hfin⟩ => by
      have hrec := length_chunks hfin
      have hsum : ∑ j, (todo j).flatten.length =
          buffer.length + ∑ j, (Function.update todo i rest j).flatten.length := by
        rw [Fintype.sum_eq_add_sum_compl i, Fintype.sum_eq_add_sum_compl i (fun j =>
          (Function.update todo i rest j).flatten.length), Function.update_self, htodo]
        have hothers : ∑ j ∈ {i}ᶜ, (Function.update todo i rest j).flatten.length =
            ∑ j ∈ {i}ᶜ, (todo j).flatten.length := Finset.sum_congr rfl fun j hj => by
          rw [Function.update_of_ne (by simpa using hj)]
        rw [hothers, List.flatten_cons, List.length_append, Nat.add_assoc]
      simp only [chunks, htodo, List.flatten_cons, List.length_append, hrec, hsum]

/-- A client that has not begun writes its op code next. -/
theorem chunks_other {U : Finset ι} {i j : ι} (hne : j ≠ i) {rest : List Bytes}
    (hrest : rest <:+ (clients i).writes) {order : List ι}
    (hfin : Finishes (Function.update (pending clients U) i rest) (j :: order)) :
    ∃ (n : Nat) (p : PipePath) (more : Bytes),
      (chunks (Function.update (pending clients U) i rest) (j :: order)).flatten =
        List.replicate (n + 1) 1 ++ (p.field ++ more) := by
  obtain ⟨buffer, rest', htodo, hfin'⟩ := hfin
  have hpart : Partway clients (Function.update (pending clients U) i rest) := fun k => by
    by_cases hk : k = i
    · subst hk
      rwa [Function.update_self]
    · rw [Function.update_of_ne hk, pending]
      split
      · exact List.suffix_refl _
      · exact List.nil_suffix
  have hj := htodo
  rw [Function.update_of_ne hne, pending] at hj
  split at hj
  · rw [Setup.writes] at hj
    obtain ⟨rfl, rfl⟩ := List.cons.inj hj
    obtain ⟨n, p, more, heq⟩ := chunks_lead (hpart.update htodo) hfin'
      ⟨j, by rw [Function.update_self]; simp⟩
    refine ⟨n, p, more, ?_⟩
    simp only [chunks, htodo, List.flatten_cons, heq, List.replicate_succ]
    rfl
  · cases hj

end Chunks

/-! ## Frames -/

theorem setups_frame {bs : Bytes} (hlen : 2 * MAX_PATH ≤ bs.length) : setups 0 (1 :: bs) =
    match snprintf (bs.take MAX_PATH), snprintf ((bs.drop MAX_PATH).take MAX_PATH) with
    | some p, some q => (p, q) :: setups 0 (bs.drop (2 * MAX_PATH))
    | _, _ => [] := by
  rw [setups, if_pos rfl, if_pos hlen, setups_drop]

/-- A whole message is a frame. -/
theorem setups_message (m : Setup) (bs : Bytes) : setups 0 (m.message ++ bs) =
    (m.req_pipe_path.bytes, m.resp_pipe_path.bytes) :: setups 0 bs := by
  have hreq := m.req_pipe_path.length_field
  have hresp := m.resp_pipe_path.length_field
  have hsplit : m.message ++ bs = 1 :: (m.req_pipe_path.field ++ (m.resp_pipe_path.field ++ bs)) := by
    simp [Setup.message]
  rw [hsplit, setups_frame (by simp only [List.length_append]; omega), List.take_left' hreq,
    List.drop_left' hreq, List.take_left' hresp, snprintf_field, snprintf_field, Nat.two_mul,
    ← List.drop_drop, List.drop_left' hreq, List.drop_left' hresp]

/-- An array that begins with an op code and goes on with a path has no NUL, or is followed by
    one. -/
theorem slot_of_ones (n : Nat) (p : PipePath) (more : Bytes) :
    snprintf ((List.replicate (n + 1) 1 ++ (p.field ++ more)).take MAX_PATH) = none ∨
      ∃ rest, (List.replicate (n + 1) 1 ++ (p.field ++ more)).drop MAX_PATH = 0 :: rest := by
  have hnul : 0 ∉ List.replicate (n + 1) 1 ++ p.bytes := by
    simpa [List.mem_replicate] using p.no_nul
  have hsplit : List.replicate (n + 1) 1 ++ (p.field ++ more) =
      (List.replicate (n + 1) 1 ++ p.bytes) ++
        (List.replicate (MAX_PATH - p.bytes.length) 0 ++ more) := by
    simp [PipePath.field]
  have hlen : (List.replicate (n + 1) 1 ++ p.bytes).length = n + 1 + p.bytes.length := by simp
  have hlt := p.lt_max
  rw [hsplit]
  rcases Nat.lt_or_ge (n + 1 + p.bytes.length) MAX_PATH with h | h
  · right
    refine ⟨List.replicate n 0 ++ more, ?_⟩
    have hzeros : MAX_PATH - p.bytes.length - (MAX_PATH - (n + 1 + p.bytes.length)) = n + 1 := by
      omega
    rw [List.drop_append, List.drop_eq_nil_of_le (by omega), hlen,
      List.drop_append_of_le_length (by rw [List.length_replicate]; omega), List.drop_replicate,
      hzeros, List.replicate_succ]
    rfl
  · left
    rw [List.take_append_of_le_length (by omega), snprintf,
      if_neg fun hm => hnul (List.mem_of_mem_take hm)]

/-! ## One request per client -/

section Perm

variable {ι : Type} {clients : ι → Setup}

/-- The paths of a client. -/
def Client.Setup.paths (m : Setup) : Bytes × Bytes := (m.req_pipe_path.bytes, m.resp_pipe_path.bytes)

/-- The number of bytes that the clients in `U` write. -/
theorem length_pending [DecidableEq ι] [Fintype ι] {U : Finset ι} {order : List ι}
    (hfin : Finishes (pending clients U) order) :
    (chunks (pending clients U) order).flatten.length = U.card * messageSize := by
  have hone : ∀ i, (pending clients U i).flatten.length = if i ∈ U then messageSize else 0 := by
    intro i
    rw [pending]
    split
    · rw [Setup.flatten_writes, Setup.length_message]
    · rfl
  rw [length_chunks hfin]
  simp only [hone, Finset.sum_ite_mem, Finset.univ_inter, Finset.sum_const, Nat.nsmul_eq_mul]

/-- Too few pairs for the clients in `U`. -/
theorem ne_of_few {U : Finset ι} {pairs : List (Bytes × Bytes)} (h : pairs.length < U.card) :
    (pairs : Multiset (Bytes × Bytes)) ≠ U.val.map fun i => (clients i).paths := by
  intro heq
  have := congrArg Multiset.card heq
  rw [Multiset.coe_card, Multiset.card_map, Finset.card_val] at this
  omega

theorem snprintf_nul (bs : Bytes) : snprintf ((0 :: bs).take MAX_PATH) = some [] := by
  simp [snprintf, MAX_PATH]

/-- Another client's op code in the first path: no request, or one without a response path. -/
theorem setups_ne_of_first {U : Finset ι} (hU : U.Nonempty) {n : Nat} {p : PipePath} {more : Bytes} :
    (setups 0 (1 :: (List.replicate (n + 1) 1 ++ (p.field ++ more))) : Multiset (Bytes × Bytes)) ≠
      U.val.map fun i => (clients i).paths := by
  have hnone : ((([] : List (Bytes × Bytes)) : Multiset (Bytes × Bytes))) ≠
      U.val.map fun i => (clients i).paths := ne_of_few (Finset.card_pos.2 hU)
  by_cases hlen : 2 * MAX_PATH ≤ (List.replicate (n + 1) 1 ++ (p.field ++ more)).length
  · rw [setups_frame hlen]
    obtain hslot | ⟨rest, hslot⟩ := slot_of_ones n p more
    · simpa only [hslot] using hnone
    · simp only [hslot, snprintf_nul]
      split
      · next q r hq hr =>
        cases hr
        intro heq
        have hmem := Multiset.mem_coe.2 (List.mem_cons_self (a := (q, ([] : Bytes))) (l := setups 0
          ((List.replicate (n + 1) 1 ++ (p.field ++ more)).drop (2 * MAX_PATH))))
        rw [heq] at hmem
        obtain ⟨i, -, hi⟩ := Multiset.mem_map.1 hmem
        exact (clients i).resp_pipe_path.ne_nil (Prod.mk.inj hi).2
      · exact hnone
  · rw [setups, if_pos rfl, if_neg hlen]
    exact hnone

/-- Another client's op code in the second path: no request, or a byte that begins no frame. -/
theorem setups_ne_of_second {U : Finset ι} {r : PipePath} {n : Nat} {p : PipePath} {more : Bytes}
    (hlen : (r.field ++ (List.replicate (n + 1) 1 ++ (p.field ++ more))).length + 1 =
      U.card * messageSize) :
    (setups 0 (1 :: (r.field ++ (List.replicate (n + 1) 1 ++ (p.field ++ more)))) :
      Multiset (Bytes × Bytes)) ≠ U.val.map fun i => (clients i).paths := by
  have hr := r.length_field
  have hU : 0 < U.card := by
    by_contra h0
    simp [Nat.eq_zero_of_not_pos h0] at hlen
  have hfull : 2 * MAX_PATH ≤ (r.field ++ (List.replicate (n + 1) 1 ++ (p.field ++ more))).length := by
    have : messageSize ≤ U.card * messageSize := Nat.le_mul_of_pos_left _ hU
    simp only [messageSize] at this hlen
    omega
  refine ne_of_few ?_
  rw [setups_frame hfull, List.take_left' hr, List.drop_left' hr, snprintf_field]
  obtain hslot | ⟨rest, hslot⟩ := slot_of_ones n p more
  · simpa only [hslot, List.length_nil] using hU
  · split
    · have hdrop : (r.field ++ (List.replicate (n + 1) 1 ++ (p.field ++ more))).drop (2 * MAX_PATH) =
          0 :: rest := by
        rw [Nat.two_mul, ← List.drop_drop, List.drop_left' hr, hslot]
      have hrest := congrArg List.length hdrop
      rw [List.length_drop, List.length_cons] at hrest
      have hskip : setups 0 (0 :: rest) = setups 0 rest := by rw [setups, if_neg (by decide)]
      have hfew := length_setups 0 rest
      rw [hdrop, hskip, List.length_cons]
      simp only [messageSize, MAX_PATH] at hfew hrest hlen ⊢
      omega
    · exact hU

/-- When client `i` has made its calls, the others are still pending. -/
theorem update_pending [DecidableEq ι] (U : Finset ι) (i : ι) :
    Function.update (pending clients U) i [] = pending clients (U.erase i) := by
  funext j
  by_cases hj : j = i
  · simp [hj, pending]
  · simp [hj, pending]

section Next

variable [DecidableEq ι] {todo : ι → List Bytes} {U : Finset ι} {i : ι} {order : List ι}

/-- The next write is that of a client with `buffer` to write. -/
theorem finishes_next {buffer : Bytes} {rest : List Bytes}
    (hfin : Finishes (Function.update todo i (buffer :: rest)) (i :: order)) :
    Finishes (Function.update todo i rest) order ∧
      (chunks (Function.update todo i (buffer :: rest)) (i :: order)).flatten =
        buffer ++ (chunks (Function.update todo i rest) order).flatten := by
  obtain ⟨buffer', rest', htodo, hfin'⟩ := hfin
  have hself := htodo
  rw [Function.update_self] at hself
  obtain ⟨rfl, rfl⟩ := List.cons.inj hself
  rw [Function.update_idem] at hfin'
  refine ⟨hfin', ?_⟩
  simp only [chunks, htodo, Function.update_idem, List.flatten_cons]

theorem not_finishes_nil {buffer : Bytes} {rest : List Bytes} :
    ¬ Finishes (Function.update todo i (buffer :: rest)) [] := fun hfin => by
  have := hfin i
  rw [Function.update_self] at this
  cases this

/-- The first write after a whole number of messages is the op code of a pending client. -/
theorem finishes_first (hfin : Finishes (pending clients U) (i :: order)) :
    i ∈ U ∧ Finishes (Function.update (pending clients U) i
        [(clients i).req_pipe_path.field, (clients i).resp_pipe_path.field]) order ∧
      (chunks (pending clients U) (i :: order)).flatten =
        1 :: (chunks (Function.update (pending clients U) i
          [(clients i).req_pipe_path.field, (clients i).resp_pipe_path.field]) order).flatten := by
  have hi : i ∈ U := by
    obtain ⟨buffer, rest, htodo, -⟩ := hfin
    by_contra hi
    simp [pending, hi] at htodo
  have hself : pending clients U = Function.update (pending clients U) i (clients i).writes := by
    rw [eq_comm, Function.update_eq_self_iff, pending, if_pos hi]
  rw [hself] at hfin ⊢
  obtain ⟨hfin', hchunks⟩ := finishes_next hfin
  rw [Function.update_idem]
  exact ⟨hi, hfin', hchunks⟩

/-- Another client's write after the first op code. -/
theorem setups_of_other {j : ι} (hfin : Finishes (pending clients U) (i :: j :: order))
    (hne : j ≠ i) :
    (setups 0 (chunks (pending clients U) (i :: j :: order)).flatten : Multiset (Bytes × Bytes)) =
      U.val.map (fun i => (clients i).paths) ↔ Contiguous (i :: j :: order) := by
  obtain ⟨hi, hfin₁, hchunks⟩ := finishes_first hfin
  obtain ⟨n, p, more, hother⟩ := chunks_other hne ⟨[[1]], rfl⟩ hfin₁
  rw [hchunks, hother]
  refine iff_of_false (setups_ne_of_first ⟨i, hi⟩) ?_
  cases order with
  | nil => exact id
  | cons k order => exact fun h => hne h.1

end Next

/-- **The frames are the clients' messages if and only if the writes are contiguous.** -/
theorem setups_iff [DecidableEq ι] [Fintype ι] : ∀ (order : List ι) (U : Finset ι),
    Finishes (pending clients U) order →
    ((setups 0 (chunks (pending clients U) order).flatten : Multiset (Bytes × Bytes)) =
      U.val.map (fun i => (clients i).paths) ↔ Contiguous order)
  | [], U, hfin => by
      have hU : U = ∅ := by
        rw [Finset.eq_empty_iff_forall_notMem]
        intro i hi
        have : pending clients U i = [] := hfin i
        simp [pending, hi, Setup.writes] at this
      subst hU
      exact iff_of_true rfl trivial
  | [i], U, hfin => (not_finishes_nil (finishes_first hfin).2.1).elim
  | [i, j], U, hfin => by
      by_cases hj : j = i
      · subst hj
        exact (not_finishes_nil (finishes_next (finishes_first hfin).2.1).1).elim
      · exact setups_of_other hfin hj
  | i :: j :: k :: order, U, hfin => by
      have hlen := length_pending hfin
      obtain ⟨hi, hfin₁, hchunks⟩ := finishes_first hfin
      by_cases hj : j = i
      · subst hj
        obtain ⟨hfin₂, hchunks₂⟩ := finishes_next hfin₁
        by_cases hk : k = j
        · subst hk
          obtain ⟨hfin₃, hchunks₃⟩ := finishes_next hfin₂
          rw [update_pending] at hfin₃ hchunks₃
          have hmessage : (chunks (pending clients U) (k :: k :: k :: order)).flatten =
              (clients k).message ++ (chunks (pending clients (U.erase k)) order).flatten := by
            rw [hchunks, hchunks₂, hchunks₃, Setup.message]
            simp
          have hU : U.val.map (fun i => (clients i).paths) =
              (clients k).paths ::ₘ (U.erase k).val.map fun i => (clients i).paths := by
            rw [Finset.erase_val, ← Multiset.map_cons (fun i => (clients i).paths),
              Multiset.cons_erase hi]
          rw [hmessage, setups_message, hU, ← Multiset.cons_coe, Setup.paths, Multiset.cons_inj_right,
            setups_iff order (U.erase k) hfin₃]
          simp [Contiguous]
        · obtain ⟨n, p, more, hother⟩ := chunks_other hk
            ⟨[[1], (clients j).req_pipe_path.field], rfl⟩ hfin₂
          rw [hchunks, hchunks₂, hother] at hlen ⊢
          refine iff_of_false (setups_ne_of_second hlen) ?_
          rintro ⟨-, rfl, -⟩
          exact hk rfl
      · exact setups_of_other hfin hj

end Perm

/-- **One request per client, with its own paths, if and only if each client's three writes are
    contiguous**, for any number of clients and any order of their writes. -/
theorem starts_iff {n : Nat} {clients : Fin n → Setup} {order : List (Fin n)}
    {s : Starting (Fin n)} (hwrites : exec writeStep (starting clients) order = some s)
    (hdone : ∀ i, s.todo i = []) {x₀ : Extractor} {ρs : List Round}
    (hstart : Awaits s.server_pipe.written x₀) (hflag : x₀.server_fd.printFlag = false)
    (hρs : ∀ ρ ∈ ρs, ρ.Quiet) (hrun : exec (extractStep server_pipe_path) x₀ ρs = some x)
    (hthrough : Through x) :
    x.inserted.Perm (List.ofFn fun i => (clients i).request server_pipe_path) ↔
      Contiguous order := by
  obtain ⟨hfin, hwritten⟩ := written_of_run rfl hwrites hdone
  have hall : (starting clients).todo = pending clients Finset.univ := by
    funext i
    simp [starting, pending]
  have hbytes : s.server_pipe.written =
      (chunks (pending clients Finset.univ) order).flatten := by
    rw [hwritten, hall]
    rfl
  rw [hall] at hfin
  have hinj : Function.Injective (requestOf server_pipe_path) := fun p q hpq =>
    Prod.ext (congrArg Request.request_pipe_path hpq) (congrArg Request.response_pipe_path hpq)
  have hclients : (List.ofFn fun i => (clients i).request server_pipe_path) =
      (List.ofFn fun i => (clients i).paths).map (requestOf server_pipe_path) := by
    rw [List.map_ofFn]
    rfl
  rw [← setups_iff order Finset.univ hfin, Fin.univ_val_map, ← hbytes,
    inserted_of_quiet hstart hflag hρs hrun hthrough, hclients, ← Multiset.coe_eq_coe,
    ← Multiset.map_coe, ← Multiset.map_coe, (Multiset.map_injective hinj).eq_iff]

/-! ### Two clients -/

def twoClients : Fin 2 → Setup
  | 0 => setupAB
  | 1 => setupCD

theorem quiet_rounds (n : Nat) : ∀ ρ ∈ List.replicate n ({} : Round), ρ.Quiet := by
  intro ρ hρ
  rw [List.eq_of_mem_replicate hρ]
  exact ⟨calm_nil, rfl, rfl, rfl⟩

/-- The state after the two clients have written in this order, and the server's after `n` rounds
    that read it. -/
theorem two_clients (order : List (Fin 2)) (n : Nat) {P : Extractor → Bool}
    (h : (exec writeStep (starting twoClients) order).any (fun s => decide (∀ i, s.todo i = []) &&
      (exec (extractStep []) (.reading s.server_pipe.written) (List.replicate n {})).any P) =
        true) :
    ∃ s x, exec writeStep (starting twoClients) order = some s ∧ (∀ i, s.todo i = []) ∧
      exec (extractStep []) (.reading s.server_pipe.written) (List.replicate n {}) = some x ∧
      P x = true := by
  obtain ⟨s, hs, hrest⟩ := (Option.any_eq_true _ _).1 h
  obtain ⟨hdone, hrun⟩ := Bool.and_eq_true_iff.1 hrest
  obtain ⟨x, hx, hP⟩ := (Option.any_eq_true _ _).1 hrun
  exact ⟨s, x, hs, of_decide_eq_true hdone, hx, hP⟩

theorem starts_iff_two : ∃ s x, exec writeStep (starting twoClients) [1, 1, 1, 0, 0, 0] = some s ∧
    exec (extractStep []) (.reading s.server_pipe.written) (List.replicate 3 {}) = some x ∧
    (x.inserted.Perm (List.ofFn fun i => (twoClients i).request []) ↔
      Contiguous ([1, 1, 1, 0, 0, 0] : List (Fin 2))) := by
  obtain ⟨s, x, hs, hdone, hx, hstopped⟩ := two_clients [1, 1, 1, 0, 0, 0] 3
    (P := fun x => x.stopped ≠ none) (by decide +kernel)
  exact ⟨s, x, hs, hx, starts_iff hs hdone (awaits_reading _) rfl (quiet_rounds 3) hx
    (Or.inr (of_decide_eq_true hstopped))⟩

/-- The op code of client 1 falls between the writes of client 0: the server inserts one request,
    for the pipes "\x01a" and "". -/
theorem mixed_starts : ∃ s x, exec writeStep (starting twoClients) [0, 1, 0, 0, 1, 1] = some s ∧
    (∀ i, s.todo i = []) ∧
    exec (extractStep []) (.reading s.server_pipe.written) (List.replicate 83 {}) = some x ∧
    Through x ∧ x.inserted = [⟨-1, [1, 97], [], []⟩] ∧
    ¬ x.inserted.Perm (List.ofFn fun i => (twoClients i).request []) := by
  obtain ⟨s, x, hs, hdone, hx, hend⟩ := two_clients [0, 1, 0, 0, 1, 1] 83
    (P := fun x => x.stopped ≠ none ∧ x.inserted = [⟨-1, [1, 97], [], []⟩]) (by decide +kernel)
  obtain ⟨hstopped, hinserted⟩ := of_decide_eq_true hend
  refine ⟨s, x, hs, hdone, hx, Or.inr hstopped, hinserted, fun hperm => ?_⟩
  have := hperm.length_eq
  rw [hinserted, List.length_ofFn] at this
  cases this

end EventServer
