import GammaRay.NbdReplies
import GammaRay.WriteQueue

set_option autoImplicit false

/-!
# What a READ brings and what a WRITE leaves

The two transfer loops of `nbd.c` when the kernel moves as much as it likes in each call. The loop
of `handle_read` stores every piece at the front of the buffer and has no exit at the end of the
file; that of `handle_write` asks for the whole length in every call.
-/
namespace GammaRay.Nbd
open Bytes Loop

/-- The call of `lseek64` fails. -/
def SeekFails (S : Server) (req : ReqHeader) (c : Conn) : Prop :=
  i64 req.offset < 0 ∨ S.kernel.lseek c.world.calls ≠ none

section Read

variable {K : Kernel} {counts : ℕ → ℕ}

/-- The numbers of bytes that the calls from `calls` on move, until there are `len` of them. -/
def transfer (counts : ℕ → ℕ) : ℕ → ℕ → ℕ → List ℕ
  | 0, _, _ => []
  | fuel + 1, calls, len =>
    if len = 0 then []
    else min (max 1 (counts calls)) len ::
      transfer counts fuel (calls + 1) (len - min (max 1 (counts calls)) len)

/-- The pieces of a file from `base` on, each stored at the front of a buffer. -/
def frontStores (file : List UInt8) : ℕ → List ℕ → List UInt8 → List UInt8
  | _, [], buf => buf
  | base, n :: ns, buf => frontStores file (base + n) ns (splice buf 0 ((file.drop base).take n))

/-- The place in the file of the byte that ends up at place `j` of the buffer: it comes with the
last piece that is longer than `j`. -/
def broughtFrom : ℕ → List ℕ → ℕ → Option ℕ
  | _, [], _ => none
  | base, n :: ns, j => (broughtFrom (base + n) ns j).or (if j < n then some (base + j) else none)

theorem transfer_sum {fuel len : ℕ} (calls : ℕ) (h : len ≤ fuel) :
    (transfer counts fuel calls len).sum = len := by
  induction fuel generalizing calls len with
  | zero => exact (Nat.le_zero.mp h).symm
  | succ fuel ih =>
    rw [transfer]
    split
    · next h0 => exact h0.symm
    · rw [List.sum_cons, ih _ (by omega)]
      omega

theorem splice_front_getElem? {buf src : List UInt8} (j : ℕ) :
    (splice buf 0 src)[j]? = if j < src.length then src[j]? else buf[j]? := by
  rw [splice, List.take_zero, List.nil_append, Nat.zero_add]
  split
  · next h => exact List.getElem?_append_left h
  · next h =>
    rw [List.getElem?_append_right (by omega), List.getElem?_drop]
    congr 1
    omega

theorem frontStores_getElem? {file : List UInt8} {base : ℕ} {ns : List ℕ} {buf : List UInt8}
    (h : base + ns.sum ≤ file.length) (j : ℕ) :
    (frontStores file base ns buf)[j]? =
      (broughtFrom base ns j).elim buf[j]? fun place => file[place]? := by
  induction ns generalizing base buf with
  | nil => rfl
  | cons n ns ih =>
    rw [List.sum_cons] at h
    have hlen : ((file.drop base).take n).length = n := by
      rw [List.length_take, List.length_drop]
      omega
    rw [frontStores, ih (by omega), broughtFrom, splice_front_getElem?, hlen]
    cases broughtFrom (base + n) ns j with
    | some place => rfl
    | none =>
      rw [Option.none_or]
      split
      · next hj => rw [Option.elim_none, Option.elim_some, List.getElem?_take_of_lt hj,
          List.getElem?_drop]
      · rfl

theorem frontStores_length {file : List UInt8} {base : ℕ} {ns : List ℕ} {buf : List UInt8}
    (h : ns.sum ≤ buf.length) : (frontStores file base ns buf).length = buf.length := by
  induction ns generalizing base buf with
  | nil => rfl
  | cons n ns ih =>
    rw [List.sum_cons] at h
    have hlen : ((file.drop base).take n).length ≤ n := List.length_take_le ..
    have hsplice : (splice buf 0 ((file.drop base).take n)).length = buf.length :=
      splice_length (by omega)
    rw [frontStores, ih (by omega), hsplice]

/-- One round of the loop. -/
theorem readLoop_round (hK : ∀ n, K.read n = .ok (counts n)) {fuel len : ℕ} {buf : List UInt8}
    {w : World} (hpos : 0 < len) :
    readLoop K (fuel + 1) buf len w =
      (let data := (w.file.drop w.position).take (min (max 1 (counts w.calls)) len)
      if data.isEmpty then none
      else readLoop K fuel (splice buf 0 data) (len - data.length)
        { w.called with position := w.position + data.length }) := by
  obtain ⟨len, rfl⟩ := Nat.exists_eq_add_one.mpr hpos
  simp only [readLoop, World.read, hK]

/-- Inside the file the loop ends. -/
theorem readLoop_inside (hK : ∀ n, K.read n = .ok (counts n)) {fuel len : ℕ} {buf : List UInt8}
    {w : World} (hf : len ≤ fuel) (hroom : w.position + len ≤ w.file.length) :
    ∃ w', readLoop K fuel buf len w =
      some (none, frontStores w.file w.position (transfer counts fuel w.calls len) buf, w') := by
  induction fuel generalizing buf len w with
  | zero =>
    obtain rfl := Nat.le_zero.mp hf
    exact ⟨w, rfl⟩
  | succ fuel ih =>
    rcases Nat.eq_zero_or_pos len with rfl | hpos
    · exact ⟨w, rfl⟩
    · rw [readLoop_round hK hpos, transfer, if_neg hpos.ne', frontStores]
      dsimp only
      rw [readPart_isEmpty _ hpos hroom, if_neg Bool.false_ne_true, readPart_length _ hroom]
      exact ih (w := { w.called with position := w.position + _ }) (by omega)
        (by change w.position + _ + _ ≤ w.file.length; omega)

/-- Past the end of the file it does not. -/
theorem readLoop_outside (hK : ∀ n, K.read n = .ok (counts n)) {fuel len : ℕ} {buf : List UInt8}
    {w : World} (hpos : 0 < len) (hroom : w.file.length < w.position + len) :
    readLoop K fuel buf len w = none := by
  induction fuel generalizing buf len w with
  | zero =>
    obtain ⟨len, rfl⟩ := Nat.exists_eq_add_one.mpr hpos
    rfl
  | succ fuel ih =>
    rw [readLoop_round hK hpos]
    have hlen : ((w.file.drop w.position).take (min (max 1 (counts w.calls)) len)).length =
        min (min (max 1 (counts w.calls)) len) (w.file.length - w.position) := by
      rw [List.length_take, List.length_drop]
    dsimp only
    split
    · rfl
    · next hne =>
      rw [Bool.not_eq_true, List.isEmpty_eq_false_iff, ← List.length_pos_iff] at hne
      refine ih (by omega) ?_
      change w.file.length < w.position + _ + (len - _)
      omega

variable {S : Server} {req : ReqHeader} {c : Conn}

/-- The request is dealt with, and if that is reported for bytes of the file, the buffer holds
them. -/
def ReadsExactly (S : Server) (req : ReqHeader) (c : Conn) : Prop :=
  ∃ r t, handleRead S req c = some (r, t) ∧
    (r = 0 → i64 req.offset + req.length ≤ c.world.file.length →
      t.client.buf = some ((c.world.file.drop (i64 req.offset).toNat).take req.length))

/-- The bytes of the file that are asked for are there, and every place of the buffer has the
right one: from the last piece to reach it, or from before. -/
def Placed (counts : ℕ → ℕ) (buf : List UInt8) (req : ReqHeader) (c : Conn) : Prop :=
  (i64 req.offset).toNat + req.length ≤ c.world.file.length ∧
    ∀ j < req.length,
      ((broughtFrom (i64 req.offset).toNat
          (transfer counts req.length (c.world.calls + 1) req.length) j).elim buf[j]?
        fun place => c.world.file[place]?) = c.world.file[(i64 req.offset).toNat + j]?

theorem lseek_of_not_fails (h : ¬ SeekFails S req c) :
    0 ≤ i64 req.offset ∧ ∃ w, c.world.lseek S.kernel (i64 req.offset) = (none, w) ∧
      w.file = c.world.file ∧ w.position = (i64 req.offset).toNat ∧
      w.calls = c.world.calls + 1 := by
  unfold SeekFails at h
  push Not at h
  obtain ⟨hoff, hseek⟩ := h
  refine ⟨hoff, ?_⟩
  generalize i64 req.offset = offset at hoff ⊢
  rw [World.lseek, if_neg (by omega), hseek]
  exact ⟨_, rfl, rfl, rfl, rfl⟩

theorem lseek_of_fails (h : SeekFails S req c) :
    ∃ e, c.world.lseek S.kernel (i64 req.offset) = (some e, c.world.called) := by
  unfold World.lseek
  split
  · exact ⟨einval, rfl⟩
  · next hneg =>
    obtain ⟨e, he⟩ := Option.ne_none_iff_exists'.mp (h.resolve_left hneg)
    exact ⟨e, by rw [he]⟩

theorem placed_iff {buf : List UInt8} (hbuf : buf.length = req.length)
    (hroom : (i64 req.offset).toNat + req.length ≤ c.world.file.length) :
    frontStores c.world.file (i64 req.offset).toNat
        (transfer counts req.length (c.world.calls + 1) req.length) buf =
      (c.world.file.drop (i64 req.offset).toNat).take req.length ↔ Placed counts buf req c := by
  have hsum : (transfer counts req.length (c.world.calls + 1) req.length).sum = req.length :=
    transfer_sum _ le_rfl
  unfold Placed
  generalize transfer counts req.length (c.world.calls + 1) req.length = ns at hsum ⊢
  have hget := @frontStores_getElem? c.world.file (i64 req.offset).toNat ns buf (by omega)
  constructor
  · intro h
    refine ⟨hroom, fun j hj => ?_⟩
    rw [← hget, h, List.getElem?_take_of_lt hj, List.getElem?_drop]
  · rintro ⟨-, hplaces⟩
    apply List.ext_getElem?
    intro j
    by_cases hj : j < req.length
    · rw [hget, hplaces j hj, List.getElem?_take_of_lt hj, List.getElem?_drop]
    · rw [List.getElem?_eq_none, List.getElem?_eq_none]
      · rw [List.length_take]
        omega
      · rw [frontStores_length (by omega)]
        omega

theorem transfer_pos {fuel calls len n : ℕ} (h : n ∈ transfer counts fuel calls len) : 0 < n := by
  induction fuel generalizing calls len with
  | zero => cases h
  | succ fuel ih =>
    rw [transfer] at h
    split at h
    · cases h
    · rcases List.mem_cons.mp h with rfl | h
      · omega
      · exact ih h

/-- The first place of the buffer has its byte from the last piece. -/
theorem broughtFrom_zero {base n : ℕ} {ns : List ℕ} (hn : 0 < n) (hns : ∀ m ∈ ns, 0 < m) :
    ∃ place, broughtFrom base (n :: ns) 0 = some place ∧ base ≤ place ∧
      (ns ≠ [] → base + n ≤ place) := by
  induction ns generalizing base n with
  | nil => exact ⟨base, by simp [broughtFrom, hn], le_rfl, fun h => absurd rfl h⟩
  | cons m ns ih =>
    obtain ⟨place, hplace, hle, -⟩ := @ih (base + n) m (hns m List.mem_cons_self)
      fun k hk => hns k (List.mem_cons_of_mem m hk)
    exact ⟨place, by rw [broughtFrom, hplace, Option.some_or], by omega, fun _ => hle⟩

theorem placed_of_whole {buf : List UInt8}
    (hroom : (i64 req.offset).toNat + req.length ≤ c.world.file.length)
    (hwhole : req.length ≤ max 1 (counts (c.world.calls + 1))) : Placed counts buf req c := by
  refine ⟨hroom, fun j hj => ?_⟩
  obtain ⟨len, hlen⟩ := Nat.exists_eq_add_one.mpr (Nat.zero_lt_of_lt hj)
  have hns : transfer counts req.length (c.world.calls + 1) req.length = [req.length] := by
    rw [hlen, transfer, if_neg (Nat.succ_ne_zero len), Nat.min_eq_right (by omega), Nat.sub_self]
    cases len <;> rfl
  rw [hns, broughtFrom, broughtFrom, Option.none_or, if_pos hj, Option.elim_some]

/-- Only one `read` for everything is right for every content of the file. -/
theorem placed_forall_iff {buf : List UInt8} (hlen : 0 < req.length) :
    (∀ file, file.length = c.world.file.length →
      Placed counts buf req { c with world := { c.world with file := file } }) ↔
    (i64 req.offset).toNat + req.length ≤ c.world.file.length ∧
      req.length ≤ max 1 (counts (c.world.calls + 1)) := by
  constructor
  · intro hall
    have hroom := (hall _ rfl).1
    refine ⟨hroom, ?_⟩
    by_contra hshort
    -- a file that is zero but for the first byte asked for
    generalize hoff : (i64 req.offset).toNat = offset at hroom
    have hone : offset < c.world.file.length := by
      change offset + req.length ≤ c.world.file.length at hroom
      omega
    have hplaced := (hall ((List.replicate c.world.file.length 0).set offset 1) (by simp)).2 0 hlen
    obtain ⟨len, hreq⟩ := Nat.exists_eq_add_one.mpr hlen
    have hns : transfer counts req.length (c.world.calls + 1) req.length =
        max 1 (counts (c.world.calls + 1)) :: transfer counts len (c.world.calls + 2)
          (req.length - max 1 (counts (c.world.calls + 1))) := by
      rw [hreq, transfer, if_neg (Nat.succ_ne_zero len), Nat.min_eq_left (by omega)]
    have hrest : transfer counts len (c.world.calls + 2)
        (req.length - max 1 (counts (c.world.calls + 1))) ≠ [] := by
      intro hnil
      have hsum := @transfer_sum counts len
        (req.length - max 1 (counts (c.world.calls + 1))) (c.world.calls + 2) (by omega)
      rw [hnil, List.sum_nil] at hsum
      omega
    obtain ⟨place, hplace, -, hbehind⟩ := @broughtFrom_zero offset
      (max 1 (counts (c.world.calls + 1))) (transfer counts len (c.world.calls + 2)
        (req.length - max 1 (counts (c.world.calls + 1)))) (by omega) fun _ h => transfer_pos h
    have hne : offset ≠ place := by
      have := hbehind hrest
      omega
    dsimp only at hplaced
    rw [hoff, hns, hplace, Option.elim_some, Nat.add_zero, List.getElem?_set_ne hne,
      List.getElem?_set_self (by simpa using hone)] at hplaced
    have hzero := List.mem_of_getElem? hplaced
    rw [List.mem_replicate] at hzero
    exact absurd hzero.2 (by decide)
  · rintro ⟨hroom, hwhole⟩ file hfile
    exact placed_of_whole (by rw [← hfile] at hroom; exact hroom) hwhole

end Read

section Write

variable {S : Server} {counts : ℕ → ℕ} {req : ReqHeader} {c : Conn}

/-- A file with `data` stored at an offset, and nothing else done to it. -/
structure Stored (file : List UInt8) (offset : ℕ) (data file' : List UInt8) : Prop where
  inside : ∀ j < data.length, file'[offset + j]? = data[j]?
  outside : ∀ i < file.length, i < offset ∨ offset + data.length ≤ i → file'[i]? = file[i]?
  length : file'.length = if data = [] then file.length else max file.length (offset + data.length)

/-- The calls of `write` that the loop makes from `pos` on, by the places in the buffer from
which they pass `len` bytes. -/
inductive WritesFrom (S : Server) (buf : List UInt8) (len : ℕ) : ℕ → World → ℕ → Prop where
  | here {pos : ℕ} {w : World} (h : pos < len) : WritesFrom S buf len pos w pos
  | later {pos n p : ℕ} {w w' : World} (h : pos < len)
      (hw : w.write S.kernel ((buf.drop pos ++ S.memory.behind pos).take len) = (.ok n, w'))
      (tail : WritesFrom S buf len (pos + n) w' p) : WritesFrom S buf len pos w p

def payload (req : ReqHeader) (c : Conn) : List UInt8 := (c.input.drop 28).take req.length

/-- What is reported as written is what the file has got, and no `write` reads behind the
payload. -/
def WritesExactly (S : Server) (req : ReqHeader) (c : Conn) : Prop :=
  (∀ t, handleWrite S req c = some (0, t) →
    Stored c.world.file (i64 req.offset).toNat (payload req c) t.world.file) ∧
  ∀ w, 28 + req.length ≤ c.input.length → c.world.lseek S.kernel (i64 req.offset) = (none, w) →
    ∀ pos, WritesFrom S (payload req c) req.length 0 w pos →
      pos + req.length ≤ (payload req c).length

theorem payload_length (h : 28 + req.length ≤ c.input.length) :
    (payload req c).length = req.length := by
  rw [payload, List.length_take, List.length_drop]
  omega

theorem stored_nil (file : List UInt8) (offset : ℕ) : Stored file offset [] file :=
  ⟨fun _ hj => absurd hj (Nat.not_lt_zero _), fun _ _ _ => rfl, rfl⟩

theorem stored_store {data : List UInt8} (hdata : data ≠ []) (file : List UInt8) (offset : ℕ) :
    Stored file offset data (store file offset data) := by
  have hpre : (file.take offset ++ List.replicate (offset - file.length) 0).length = offset := by
    rw [List.length_append, List.length_take, List.length_replicate]
    omega
  refine ⟨fun j hj => ?_, fun i hi hout => ?_, ?_⟩
  · rw [store, List.getElem?_append_left (by rw [List.length_append]; omega),
      List.getElem?_append_right (by omega), hpre, Nat.add_sub_cancel_left]
  · rw [store, List.append_assoc]
    rcases hout with hlt | hge
    · rw [List.getElem?_append_left (by omega), List.getElem?_append_left,
        List.getElem?_take_of_lt hlt]
      rw [List.length_take]
      omega
    · rw [List.getElem?_append_right (by omega), List.getElem?_append_right (by omega), hpre,
        List.getElem?_drop]
      congr 1
      omega
  · rw [if_neg hdata, store, List.length_append, List.length_append, hpre, List.length_drop]
    omega

/-- The first call. -/
theorem write_first (hwrite : ∀ n, S.kernel.write n = .ok (counts n)) (buf : List UInt8)
    (w : World) :
    ∃ w', w.write S.kernel ((buf.drop 0 ++ S.memory.behind 0).take buf.length) =
        (.ok (max 1 (min (counts w.calls) buf.length)), w') ∧
      w'.file = store w.file w.position (buf.take (max 1 (min (counts w.calls) buf.length))) := by
  rw [List.drop_zero, List.take_left, World.write, hwrite]
  exact ⟨_, rfl, rfl⟩

theorem writeLoop_whole {buf : List UInt8} (hpos : 0 < buf.length)
    (hwrite : ∀ n, S.kernel.write n = .ok (counts n)) {w : World}
    (hwhole : buf.length ≤ max 1 (counts w.calls)) :
    ∃ w', writeLoop S buf buf.length buf.length 0 w = some (none, w') ∧
      w'.file = store w.file w.position buf := by
  obtain ⟨w', hfirst, hfile⟩ := write_first hwrite buf w
  have hn : max 1 (min (counts w.calls) buf.length) = buf.length := by omega
  rw [hn, List.take_length] at hfile
  rw [hn] at hfirst
  refine ⟨w', ?_, hfile⟩
  generalize buf.length = len at hpos hfirst
  obtain ⟨m, rfl⟩ := Nat.exists_eq_add_one.mpr hpos
  rw [writeLoop, if_pos hpos, hfirst]
  dsimp only
  cases m with
  | zero => rfl
  | succ m => rw [writeLoop, if_neg (by omega)]

/-- A call that moves less than everything is followed by one that reads behind the payload. -/
theorem writesFrom_short (hwrite : ∀ n, S.kernel.write n = .ok (counts n)) {buf : List UInt8}
    {w : World} (hshort : max 1 (counts w.calls) < buf.length) :
    ∃ pos, WritesFrom S buf buf.length 0 w pos ∧ buf.length < pos + buf.length := by
  obtain ⟨w', hfirst, -⟩ := write_first hwrite buf w
  exact ⟨_, .later (by omega) hfirst (.here (by omega)), by omega⟩

theorem writesFrom_whole {buf : List UInt8} (hwrite : ∀ n, S.kernel.write n = .ok (counts n))
    {w : World} (hwhole : buf.length ≤ max 1 (counts w.calls)) {pos : ℕ}
    (h : WritesFrom S buf buf.length 0 w pos) : pos = 0 := by
  obtain ⟨w', hfirst, -⟩ := write_first hwrite buf w
  cases h with
  | here _ => rfl
  | later hpos hw tail =>
    rw [hfirst, Prod.mk.injEq, Except.ok.injEq] at hw
    have hbehind : ∀ {p w q}, WritesFrom S buf buf.length p w q → p < buf.length := by
      intro p w q h
      cases h <;> assumption
    have := hbehind tail
    omega

/-- A WRITE is exact just when its payload has not arrived, it does not get to its first `write`,
or that call takes everything. -/
theorem writesExactly_iff (hwrite : ∀ n, S.kernel.write n = .ok (counts n)) :
    WritesExactly S req c ↔ c.input.length < 28 + req.length ∨ SeekFails S req c ∨
      req.length ≤ max 1 (counts (c.world.calls + 1)) := by
  rcases Nat.lt_or_ge c.input.length (28 + req.length) with hshort | hfull
  · refine iff_of_true ⟨fun t ht => ?_, fun w hle => absurd hle (by omega)⟩ (.inl hshort)
    cases hb : S.memory.realloc c.client.buf req.length with
    | none =>
      rw [handleWrite, bind_of_none hb] at ht
      cases ht
    | some buf =>
      rw [handleWrite_short hb hshort, Option.some.injEq, Prod.mk.injEq] at ht
      exact absurd ht.1 (by decide)
  rw [or_iff_right (by omega)]
  have hlen := payload_length hfull
  by_cases hfail : SeekFails S req c
  · obtain ⟨e, he⟩ := lseek_of_fails hfail
    refine iff_of_true ⟨fun t ht => ?_, fun w _ hw => ?_⟩ (.inl hfail)
    · rcases WriteQueue.handleWrite_cases ht with ⟨h0, -⟩ | ⟨e', h0, hseek⟩
      · cases h0
      · rw [seekWrite, he] at hseek
        obtain ⟨rfl, -⟩ := Prod.mk.inj (Option.some.inj hseek)
        exact absurd h0.symm e.pos.ne'
    · rw [he] at hw
      cases hw
  rw [or_iff_right hfail]
  obtain ⟨-, w, hseek, hfile, hposition, hcalls⟩ := lseek_of_not_fails hfail
  rw [← hcalls]
  constructor
  · intro h
    by_contra hless
    obtain ⟨pos, hpos, hbehind⟩ := writesFrom_short hwrite
      (by omega : max 1 (counts w.calls) < (payload req c).length)
    rw [hlen] at hpos
    have := h.2 w hfull hseek pos hpos
    omega
  · intro hwhole
    refine ⟨fun t ht => ?_, fun w' _ hw' pos hpos => ?_⟩
    · rcases WriteQueue.handleWrite_cases ht with ⟨h0, -⟩ | ⟨e, -, hrun⟩
      · cases h0
      rw [seekWrite, hseek] at hrun
      dsimp only at hrun
      change (writeLoop S (payload req c) (payload req c).length (payload req c).length 0 w >>= _) =
        _ at hrun
      rcases Nat.eq_zero_or_pos req.length with hzero | hpos
      · rw [List.length_eq_zero_iff.mp (hlen.trans hzero)] at hrun ⊢
        obtain ⟨-, hworld⟩ := Prod.mk.inj (Option.some.inj hrun)
        rw [← hworld]
        exact hfile ▸ stored_nil w.file _
      · obtain ⟨w', hloop, hstore⟩ := writeLoop_whole (hlen.symm ▸ hpos) hwrite
          (hlen.symm ▸ hwhole)
        rw [bind_of_some hloop] at hrun
        obtain ⟨-, hworld⟩ := Prod.mk.inj (Option.some.inj hrun)
        have hne : payload req c ≠ [] := List.length_pos_iff.mp (hlen.symm ▸ hpos)
        rw [← hworld, ← hfile, ← hposition]
        exact hstore ▸ stored_store hne w.file w.position
    · rw [hseek, Prod.mk.injEq] at hw'
      obtain ⟨-, rfl⟩ := hw'
      rw [← hlen] at hpos hwhole
      rw [writesFrom_whole hwrite hwhole hpos, hlen]
      omega

end Write

/-! ## A kernel that moves three bytes in every call -/

def threesServer : Server where
  handle := ⟨8, [0x78], letter_noNul⟩
  kernel := ⟨fun _ => none, fun _ => .ok 3, fun _ => .ok 3, fun _ => none, fun _ => none⟩
  memory := { zeroHeap with behind := fun n => List.replicate n 0 }

/-- A file of eight letters and a request of which only offset and length matter. -/
def lettersConn (input : List UInt8) : Conn :=
  { oldConn ⟨[97, 98, 99, 100, 101, 102, 103, 104], 0, 0, []⟩ with input := input }

def requestFor (offset length : ℕ) : ReqHeader := ⟨reqMagic, 0, 1, offset, length⟩

theorem letters_writesExactly :
    WritesExactly threesServer (requestFor 2 3) (lettersConn (List.replicate 28 0 ++ [1, 2, 3])) :=
  (writesExactly_iff fun n => (rfl : _ = Except.ok ((fun _ => 3) n))).mpr (.inr (.inr (by decide)))

/-- The second call passes the last byte of the payload and three bytes behind it, and two of
these overwrite the file. -/
theorem letters_not_writesExactly :
    (handleWrite threesServer (requestFor 0 4)
        (lettersConn (List.replicate 28 0 ++ [1, 2, 3, 4]))).map (fun p => (p.1, p.2.world.file)) =
      some (0, [1, 2, 3, 4, 0, 0, 103, 104]) ∧
    ¬ WritesExactly threesServer (requestFor 0 4)
      (lettersConn (List.replicate 28 0 ++ [1, 2, 3, 4])) := by
  have hrun : (handleWrite threesServer (requestFor 0 4)
      (lettersConn (List.replicate 28 0 ++ [1, 2, 3, 4]))).map (fun p => (p.1, p.2.world.file)) =
        some (0, [1, 2, 3, 4, 0, 0, 103, 104]) := by decide
  refine ⟨hrun, fun h => ?_⟩
  obtain ⟨⟨_, t⟩, ht, heq⟩ := Option.map_eq_some_iff.mp hrun
  obtain ⟨rfl, hfile⟩ := Prod.mk.inj heq
  have hoverwritten := (h.1 t ht).outside 4 (by decide) (.inr (by decide))
  rw [hfile] at hoverwritten
  exact absurd hoverwritten (by decide)

end GammaRay.Nbd
