/-
CodexPlus/ValidPrompt.lean

Valid prompts as sequences of pieces: an item that is neither call nor output,
or a batch, a run of calls directly followed by one output for each.

`pairingPasses_eq_self_iff` says exactly when normalization leaves such a prompt
alone.  The positions of a batch connect the pieces to `BatchAt`.
-/
import CodexPlus.NormalizeStable

namespace CodexPlus

open List

namespace Normalize

/-! ### Pieces -/

inductive Piece where
  | item (e : ResponseItemEnvelope)
  | batch (calls outputs : List ResponseItemEnvelope)

namespace Piece

def items : Piece → List ResponseItemEnvelope
  | item e => [e]
  | batch calls outputs => calls ++ outputs

/-- The call ids of a run are distinct, and its outputs are one of the right kind for each call,
in any order. -/
def Valid : Piece → Prop
  | item e => e.item.toolCallId = none ∧ e.item.outputCallId = none
  | batch calls outputs =>
    calls ≠ [] ∧ (∀ c ∈ calls, c.item.toolCallId.isSome) ∧
      (calls.map (·.item.toolCallId)).Nodup ∧
      (outputs.map (·.item.outputCallId)).Perm (calls.map (·.item.toolCallId)) ∧
      ∀ c ∈ calls, ∀ o ∈ outputs, o.item.outputCallId = c.item.toolCallId →
        c.item.isAnsweredBy o.item = true

instance : (p : Piece) → Decidable p.Valid
  | item _ => inferInstanceAs (Decidable (_ ∧ _))
  | batch _ _ => inferInstanceAs (Decidable (_ ∧ _))

/-- An output id that no output of `before` has. -/
def IsNew (before : List ResponseItemEnvelope) (o : ResponseItemEnvelope) : Prop :=
  ∀ x ∈ before, x.item.outputCallId ≠ o.item.outputCallId

/-- **When a batch behind `before` is left alone.** Its outputs stand in the reverse of call order
and none of its ids was used before; or only the id of the last call was, by a call of another
kind, and the output of the last call comes first and is the synthetic one. -/
def Stable (uuidV5 : String → String) (before : List ResponseItemEnvelope) : Piece → Prop
  | item _ => True
  | batch calls outputs =>
    (outputs.map (·.item.outputCallId) = (calls.map (·.item.toolCallId)).reverse ∧
      ∀ o ∈ outputs, IsNew before o) ∨
    ∃ cs c o os callId first, calls = cs ++ [c] ∧ outputs = o :: os ∧
      c.item.toolCallId = some callId ∧
      (abortedOutput uuidV5 callId c.item).map ResponseItemEnvelope.new = some o ∧
      before.find? (fun x => x.item.outputCallId == some callId) = some first ∧
      c.item.isAnsweredBy first.item = false ∧ ∀ o' ∈ os, IsNew before o'

end Piece

/-- The prompt the pieces make. -/
def prompt (pieces : List Piece) : List ResponseItemEnvelope := pieces.flatMap Piece.items

variable (before after : List Piece)

theorem prompt_append : prompt (before ++ after) = prompt before ++ prompt after := by
  simp [prompt]

/-! ### Positions of a piece -/

variable {pieces : List Piece} {i : ℕ}

/-- Every position of a prompt lies in a piece. -/
theorem exists_piece (hi : i < (prompt pieces).length) :
    ∃ before p after k, pieces = before ++ p :: after ∧ i = (prompt before).length + k ∧
      k < p.items.length := by
  induction pieces generalizing i with
  | nil => simp [prompt] at hi
  | cons p pieces ih =>
    rcases Nat.lt_or_ge i p.items.length with hlt | hge
    · exact ⟨[], p, pieces, i, rfl, by simp [prompt], hlt⟩
    have hrest : i - p.items.length < (prompt pieces).length := by
      simp only [prompt, flatMap_cons, length_append] at hi ⊢
      omega
    obtain ⟨before, q, after, k, rfl, hk, hlt⟩ := ih hrest
    refine ⟨p :: before, q, after, k, rfl, ?_, hlt⟩
    simp only [prompt, flatMap_cons, length_append] at hk ⊢
    omega

theorem toolCallId_of_output {e : ResponseItemEnvelope} {callId : String}
    (h : e.item.outputCallId = some callId) : e.item.toolCallId = none := by
  rcases e with ⟨item, metadata⟩
  cases item <;> first | rfl | cases h

namespace Piece

variable {calls outputs : List ResponseItemEnvelope}

section

variable (h : (batch calls outputs).Valid)

include h

theorem Valid.length_eq : outputs.length = calls.length := by
  simpa using h.2.2.2.1.length_eq

theorem Valid.call_pos : 0 < calls.length :=
  length_pos_iff.mpr h.1

theorem Valid.outputs_nodup : (outputs.map (·.item.outputCallId)).Nodup :=
  h.2.2.2.1.nodup_iff.mpr h.2.2.1

theorem Valid.callId {c : ResponseItemEnvelope} (hc : c ∈ calls) :
    ∃ callId, c.item.toolCallId = some callId :=
  Option.isSome_iff_exists.mp (h.2.1 c hc)

/-- Every output of a batch answers a call of it. -/
theorem Valid.exists_call {o : ResponseItemEnvelope}
    (ho : o ∈ outputs) : ∃ c ∈ calls, o.item.outputCallId = c.item.toolCallId ∧
      c.item.isAnsweredBy o.item := by
  have hmem : o.item.outputCallId ∈ calls.map (·.item.toolCallId) :=
    h.2.2.2.1.subset (mem_map.mpr ⟨o, ho, rfl⟩)
  obtain ⟨c, hc, hid⟩ := mem_map.mp hmem
  exact ⟨c, hc, hid.symm, h.2.2.2.2 c hc o ho hid.symm⟩

/-- Every call of a batch has an output in it. -/
theorem Valid.exists_output {c : ResponseItemEnvelope}
    (hc : c ∈ calls) : ∃ o ∈ outputs, o.item.outputCallId = c.item.toolCallId ∧
      c.item.isAnsweredBy o.item := by
  have hmem : c.item.toolCallId ∈ outputs.map (·.item.outputCallId) :=
    h.2.2.2.1.symm.subset (mem_map.mpr ⟨c, hc, rfl⟩)
  obtain ⟨o, ho, hid⟩ := mem_map.mp hmem
  exact ⟨o, ho, hid, h.2.2.2.2 c hc o ho hid⟩

theorem Valid.outputId {o : ResponseItemEnvelope}
    (ho : o ∈ outputs) : ∃ callId, o.item.outputCallId = some callId := by
  obtain ⟨c, hc, hid, -⟩ := h.exists_call ho
  obtain ⟨callId, hcall⟩ := h.callId hc
  exact ⟨callId, hid.trans hcall⟩

end

/-- A piece does not end with a call. -/
theorem Valid.getLast? {p : Piece} (h : p.Valid) {e : ResponseItemEnvelope}
    (he : p.items.getLast? = some e) : e.item.toolCallId = none := by
  cases p with
  | item =>
    cases he
    exact h.1
  | batch _ outputs =>
    have hne : outputs ≠ [] := length_pos_iff.mp (h.length_eq ▸ h.call_pos)
    rw [items, getLast?_append_of_ne_nil _ hne] at he
    obtain ⟨callId, hid⟩ := h.outputId (mem_of_getLast? he)
    exact toolCallId_of_output hid

/-- A piece does not start with an output. -/
theorem Valid.head? {p : Piece} (h : p.Valid) {e : ResponseItemEnvelope}
    (he : p.items.head? = some e) : e.item.outputCallId = none := by
  cases p with
  | item =>
    cases he
    exact h.2
  | batch =>
    obtain ⟨c, cs, rfl⟩ := exists_cons_of_ne_nil h.1
    have hce : c = e := by simpa [items] using he
    obtain ⟨callId, hid⟩ := h.callId (mem_cons_self : c ∈ c :: cs)
    rw [← hce]
    rcases hout : c.item.outputCallId with - | callId'
    · rfl
    · rw [toolCallId_of_output hout] at hid
      cases hid

theorem Valid.items_ne_nil {p : Piece} (h : p.Valid) : p.items ≠ [] := by
  cases p with
  | item => simp [items]
  | batch => simp [items, h.1]

end Piece

/-! ### A batch by position -/

variable {α : Type} {k : ℕ}

theorem eq_of_map_getElem_eq {β : Type} {l : List α} {g : α → β} (hnodup : (l.map g).Nodup)
    {k' : ℕ} (hk : k < l.length) (hk' : k' < l.length) (h : g l[k] = g l[k']) : k = k' :=
  (getElem?_inj (by simpa using hk) hnodup).mp (by simp [hk, hk', h])

section Batch

variable (A calls outputs B : List ResponseItemEnvelope)

/-- A prompt around one batch. -/
def around : List ResponseItemEnvelope := A ++ (calls ++ outputs) ++ B

theorem getElem?_around_call (hk : k < calls.length) :
    (around A calls outputs B)[A.length + k]? = some calls[k] := by
  rw [around, append_assoc, getElem?_append_right (by omega), Nat.add_sub_cancel_left,
    append_assoc, getElem?_append_left hk, getElem?_eq_getElem hk]

theorem getElem?_around_output (hk : k < outputs.length) :
    (around A calls outputs B)[A.length + calls.length + k]? = some outputs[k] := by
  have hidx : A.length + calls.length + k - A.length - calls.length = k := by omega
  rw [around, append_assoc, getElem?_append_right (by omega), append_assoc,
    getElem?_append_right (by omega), hidx, getElem?_append_left hk,
    getElem?_eq_getElem hk]

theorem getElem?_around_before {j : ℕ} (hj : j < A.length) :
    (around A calls outputs B)[j]? = A[j]? := by
  rw [around, append_assoc, getElem?_append_left hj]

variable {A calls outputs B}

theorem callIdAt_around (hk : k < calls.length) :
    callIdAt (around A calls outputs B) (A.length + k) = calls[k].item.toolCallId := by
  simp [callIdAt, getElem?_around_call A calls outputs B hk]

theorem outputIdAt_around (hk : k < outputs.length) :
    outputIdAt (around A calls outputs B) (A.length + calls.length + k)
      = outputs[k].item.outputCallId := by
  simp [outputIdAt, getElem?_around_output A calls outputs B hk]

theorem itemAt_around_call (hk : k < calls.length) :
    itemAt (around A calls outputs B) (A.length + k) = calls[k] :=
  itemAt_eq (getElem?_around_call A calls outputs B hk)

theorem itemAt_around_output (hk : k < outputs.length) :
    itemAt (around A calls outputs B) (A.length + calls.length + k) = outputs[k] :=
  itemAt_eq (getElem?_around_output A calls outputs B hk)

/-- **The batch of a piece is a batch by position.** -/
theorem batchAt_around (h : (Piece.batch calls outputs).Valid)
    (hA : ∀ e, A.getLast? = some e → e.item.toolCallId = none)
    (hB : ∀ e, B.head? = some e → e.item.outputCallId = none) :
    BatchAt (around A calls outputs B) A.length (A.length + calls.length - 1)
      (A.length + calls.length - 1 + outputs.length) := by
  have hlen := h.length_eq
  have hpos := h.call_pos
  -- a position of the batch is that of a call or of an output of the piece
  have hcall : ∀ c, A.length ≤ c → c ≤ A.length + calls.length - 1 →
      ∃ k, k < calls.length ∧ c = A.length + k := fun c h1 h2 =>
    ⟨c - A.length, by omega, by omega⟩
  have hout : ∀ i, A.length + calls.length - 1 < i →
      i ≤ A.length + calls.length - 1 + outputs.length →
      ∃ k, k < outputs.length ∧ i = A.length + calls.length + k := fun i h1 h2 =>
    ⟨i - (A.length + calls.length), by omega, by omega⟩
  refine ⟨by omega, by omega, ?_, ?_, ?_, ?_, ?_, ?_, ?_⟩
  · intro c h1 h2
    obtain ⟨k, hk, rfl⟩ := hcall c h1 h2
    rw [isCallAt, callIdAt_around hk]
    exact h.2.1 _ (getElem_mem hk)
  · intro k hk
    have hlast : A.getLast? = some (itemAt A k) := by
      rw [List.getLast?_eq_getElem?, ← hk, Nat.add_sub_cancel, getElem?_eq_itemAt (by omega)]
    rw [isCallAt, callIdAt, getElem?_around_before A calls outputs B (by omega),
      getElem?_eq_itemAt (by omega), Option.bind_some, hA _ hlast]
    rfl
  · have hidx : A.length + calls.length - 1 + outputs.length + 1
        = (A ++ (calls ++ outputs)).length + 0 := by
      simp
      omega
    rw [outputIdAt, around, hidx, getElem?_append_right (by omega), Nat.add_sub_cancel_left,
      ← List.head?_eq_getElem?]
    rcases hhead : B.head? with - | e
    · rfl
    · exact hB e hhead
  · intro i h1 h2
    obtain ⟨k, hk, rfl⟩ := hout i h1 h2
    obtain ⟨c, hc, hid, hkind⟩ := h.exists_call (getElem_mem hk)
    obtain ⟨j, hj, rfl⟩ := getElem_of_mem hc
    refine ⟨A.length + j, by omega, by omega, ?_, ?_⟩
    · rw [outputIdAt_around hk, callIdAt_around hj, hid]
    · rw [itemAt_around_call hj, itemAt_around_output hk, hkind]
  · intro c h1 h2
    obtain ⟨k, hk, rfl⟩ := hcall c h1 h2
    obtain ⟨o, ho, hid, hkind⟩ := h.exists_output (getElem_mem hk)
    obtain ⟨j, hj, rfl⟩ := getElem_of_mem ho
    refine ⟨A.length + calls.length + j, by omega, by omega, ?_, ?_⟩
    · rw [outputIdAt_around hj, callIdAt_around hk, hid]
    · rw [itemAt_around_call hk, itemAt_around_output hj, hkind]
  · intro c c' h1 h2 h1' h2' hid
    obtain ⟨k, hk, rfl⟩ := hcall c h1 h2
    obtain ⟨k', hk', rfl⟩ := hcall c' h1' h2'
    rw [callIdAt_around hk, callIdAt_around hk'] at hid
    rw [eq_of_map_getElem_eq h.2.2.1 hk hk' hid]
  · intro i i' h1 h2 h1' h2' hid
    obtain ⟨k, hk, rfl⟩ := hout i h1 h2
    obtain ⟨k', hk', rfl⟩ := hout i' h1' h2'
    rw [outputIdAt_around hk, outputIdAt_around hk'] at hid
    rw [eq_of_map_getElem_eq h.outputs_nodup hk hk' hid]

end Batch

/-! ### Stability of a piece by position -/

/-- A permutation of a list without repetitions is its reverse when it lists it backwards. -/
theorem perm_eq_reverse_iff [BEq α] [LawfulBEq α] {l l' : List α} (hnodup : l.Nodup)
    (hperm : l'.Perm l) :
    l' = l.reverse ↔ l'.Pairwise fun x y => l.idxOf y < l.idxOf x := by
  have hsorted : l.Pairwise fun x y => l.idxOf x < l.idxOf y := by
    refine pairwise_iff_getElem.mpr fun i j hi hj hij => ?_
    rwa [hnodup.idxOf_getElem i hi, hnodup.idxOf_getElem j hj]
  constructor
  · rintro rfl
    exact pairwise_reverse.mpr hsorted
  · intro hback
    have hrev : l'.reverse.Pairwise fun x y => l.idxOf x < l.idxOf y :=
      pairwise_reverse.mpr hback
    have heq := ((reverse_perm l').trans hperm).eq_of_pairwise
      (fun _ _ _ _ hab hba => absurd hab (Nat.lt_asymm hba)) hrev hsorted
    rw [← heq, reverse_reverse]

section Stability

variable {A calls outputs B : List ResponseItemEnvelope} {uuidV5 : String → String}
  (hv : (Piece.batch calls outputs).Valid)
  (hA : ∀ e, A.getLast? = some e → e.item.toolCallId = none)
  (hB : ∀ e, B.head? = some e → e.item.outputCallId = none)

include hv hA hB

theorem isDuplicateOutput_around (hk : k < outputs.length) :
    isDuplicateOutput (around A calls outputs B) (A.length + calls.length + k) = false ↔
      Piece.IsNew A outputs[k] := by
  have hpos := hv.call_pos
  have hiff := (batchAt_around hv hA hB).duplicate_iff (i := A.length + calls.length + k)
    (by omega) (by omega)
  rw [← Bool.not_eq_true, hiff, outputIdAt_around hk]
  have hbefore : ∀ {j} (hj : j < A.length), outputIdAt (around A calls outputs B) j
      = A[j].item.outputCallId := fun {j} hj => by
    rw [outputIdAt, getElem?_around_before A calls outputs B hj, getElem?_eq_getElem hj,
      Option.bind_some]
  constructor
  · intro hno x hx hid
    obtain ⟨j, hj, rfl⟩ := getElem_of_mem hx
    exact hno ⟨j, hj, (hbefore hj).trans hid⟩
  · rintro hnew ⟨j, hj, hid⟩
    exact hnew _ (getElem_mem hj) ((hbefore hj).symm.trans hid)

/-- The call a kept output of the batch is matched with is the call of the piece with its id. -/
theorem outputPositions_around (h : Batched (around A calls outputs B))
    (hk : k < outputs.length) (hnew : Piece.IsNew A outputs[k]) :
    ∃ j, ∃ hj : j < calls.length,
      outputPositions (around A calls outputs B) (A.length + calls.length + k)
        = some (A.length + j) ∧ calls[j].item.toolCallId = outputs[k].item.outputCallId := by
  have hpos := hv.call_pos
  obtain ⟨c, hc, hid, hin, -⟩ := h.outputPositions (batchAt_around hv hA hB)
    (i := A.length + calls.length + k) (by omega) (by omega)
  obtain ⟨hsc, hce⟩ := hin ((isDuplicateOutput_around hv hA hB hk).mpr hnew)
  obtain ⟨j, rfl⟩ := Nat.exists_eq_add_of_le hsc
  have hj : j < calls.length := by omega
  refine ⟨j, hj, hc, ?_⟩
  rw [← outputIdAt_around hk, ← hid, callIdAt_around hj]

/-- Outputs that are new are in the reverse of call order by position when they are by id. -/
theorem reverse_around_iff (h : Batched (around A calls outputs B))
    (hnew : ∀ o ∈ outputs, Piece.IsNew A o) :
    (outputs.map (·.item.outputCallId) = (calls.map (·.item.toolCallId)).reverse) ↔
      ∀ i j c d, A.length + calls.length - 1 < i → i < j →
        j ≤ A.length + calls.length - 1 + outputs.length →
        outputPositions (around A calls outputs B) i = some c →
        outputPositions (around A calls outputs B) j = some d → A.length ≤ d ∧ d < c := by
  have hpos := hv.call_pos
  have hidx : ∀ {j} (hj : j < calls.length),
      (calls.map (·.item.toolCallId)).idxOf calls[j].item.toolCallId = j := fun {j} hj => by
    have := hv.2.2.1.idxOf_getElem j (by simpa using hj)
    simpa using this
  have hown := fun {k} (hk : k < outputs.length) =>
    outputPositions_around hv hA hB h hk (hnew _ (getElem_mem hk))
  rw [perm_eq_reverse_iff hv.2.2.1 hv.2.2.2.1, pairwise_iff_getElem]
  simp only [length_map, getElem_map]
  constructor
  · intro hback i j c d hi hij hj hc hd
    obtain ⟨a, rfl⟩ : ∃ a, i = A.length + calls.length + a := ⟨i - (A.length + calls.length), by omega⟩
    obtain ⟨b, rfl⟩ : ∃ b, j = A.length + calls.length + b := ⟨j - (A.length + calls.length), by omega⟩
    have ha : a < outputs.length := by omega
    have hb : b < outputs.length := by omega
    obtain ⟨x, hx, hcx, hxid⟩ := hown ha
    obtain ⟨y, hy, hdy, hyid⟩ := hown hb
    have hlt := hback a b ha hb (by omega)
    rw [← hxid, ← hyid, hidx hx, hidx hy] at hlt
    cases hc.symm.trans hcx
    cases hd.symm.trans hdy
    omega
  · intro hback a b ha hb hab
    obtain ⟨x, hx, hcx, hxid⟩ := hown ha
    obtain ⟨y, hy, hdy, hyid⟩ := hown hb
    have hlt := hback (A.length + calls.length + a) (A.length + calls.length + b) _ _ (by omega)
      (by omega) (by omega) hcx hdy
    rw [← hxid, ← hyid, hidx hx, hidx hy]
    omega

omit hv hA hB in
/-- The kept output with an id used before the batch is the first one that has it. -/
theorem mem_keptItems_around {callId : String} {first o : ResponseItemEnvelope}
    (hfirst : A.find? (fun x => x.item.outputCallId == some callId) = some first) :
    (o ∈ keptItems (around A calls outputs B) ∧ o.item.outputCallId = some callId) ↔ o = first := by
  obtain ⟨hid, j, hj, hjfirst, hbefore⟩ := find?_eq_some_iff_getElem.mp hfirst
  have hid : first.item.outputCallId = some callId := by simpa using hid
  have hget : ∀ {i} (hi : i < A.length), (around A calls outputs B)[i]? = some A[i] :=
    fun {i} hi => by
      rw [getElem?_around_before A calls outputs B hi, getElem?_eq_getElem hi]
  have hjid : outputIdAt (around A calls outputs B) j = some callId := by
    rw [outputIdAt, hget hj, Option.bind_some, hjfirst, hid]
  have hleast : ∀ i, outputIdAt (around A calls outputs B) i = some callId → j ≤ i := by
    intro i hi
    by_contra hlt
    have hilen : i < A.length := by omega
    rw [outputIdAt, hget hilen, Option.bind_some] at hi
    have := hbefore i (by omega)
    simp [hi] at this
  constructor
  · rintro ⟨hmem, hoid⟩
    obtain ⟨i, hi, rfl⟩ := mem_map.mp hmem
    simp only [mem_filter, mem_range, Bool.not_eq_eq_eq_not, Bool.not_true] at hi
    rw [← outputIdAt_eq hi.1] at hoid
    have hij : i = j := by
      by_contra hne
      have := hleast i hoid
      rw [isDuplicateOutput_iff.mpr ⟨callId, hoid, j, by omega, hjid⟩] at hi
      exact absurd hi.2 (by simp)
    rw [hij, itemAt_eq (hget hj), hjfirst]
  · rintro rfl
    refine ⟨?_, hid⟩
    have hnew : isDuplicateOutput (around A calls outputs B) j = false := by
      rcases hdup : isDuplicateOutput (around A calls outputs B) j with - | -
      · rfl
      · obtain ⟨callId', hid', i, hij, hi⟩ := isDuplicateOutput_iff.mp hdup
        cases hid'.symm.trans hjid
        have := hleast i hi
        omega
    have hmem := mem_keptItems (lt_length_of_outputIdAt hjid) hnew
    rwa [itemAt_eq (hget hj), hjfirst] at hmem

theorem forall_new_around_iff (lo : ℕ) :
    (∀ i, A.length + calls.length - 1 + lo < i →
        i ≤ A.length + calls.length - 1 + outputs.length →
        isDuplicateOutput (around A calls outputs B) i = false) ↔
      ∀ o ∈ outputs.drop lo, Piece.IsNew A o := by
  have hpos := hv.call_pos
  have hdup := fun {k} (hk : k < outputs.length) => isDuplicateOutput_around hv hA hB hk
  constructor
  · intro hall o ho
    obtain ⟨k, hk, rfl⟩ := mem_iff_getElem.mp ho
    have hk' : lo + k < outputs.length := by
      rw [length_drop] at hk
      omega
    rw [getElem_drop]
    exact (hdup hk').mp (hall _ (by omega) (by omega))
  · intro hall i hi hif
    obtain ⟨k, rfl⟩ : ∃ k, i = A.length + calls.length + k := ⟨i - (A.length + calls.length), by omega⟩
    have hk : k < outputs.length := by omega
    refine (hdup hk).mpr (hall _ (mem_iff_getElem.mpr ⟨k - lo, ?_, ?_⟩))
    · rw [length_drop]
      omega
    · rw [getElem_drop]
      congr 1
      omega

omit hv hA hB in
/-- The last call gets its output back as a synthetic one. -/
theorem missingOutput_around_iff {c o : ResponseItemEnvelope} (hnew : ¬ Piece.IsNew A o)
    (hid : o.item.outputCallId = c.item.toolCallId) :
    missingOutput (keptItems (around A calls outputs B)) uuidV5 c = some o ↔
      ∃ callId first, c.item.toolCallId = some callId ∧
        (abortedOutput uuidV5 callId c.item).map ResponseItemEnvelope.new = some o ∧
        A.find? (fun x => x.item.outputCallId == some callId) = some first ∧
        c.item.isAnsweredBy first.item = false := by
  rcases hcid : c.item.toolCallId with - | callId
  · simp [missingOutput, hcid]
  -- some output before the batch has the id
  obtain ⟨x, hx, hxid⟩ : ∃ x ∈ A, x.item.outputCallId = o.item.outputCallId := by
    simpa [Piece.IsNew] using hnew
  have hsome : (A.find? fun x => x.item.outputCallId == some callId).isSome :=
    find?_isSome.mpr ⟨x, hx, by rw [hxid, hid, hcid, beq_self_eq_true]⟩
  obtain ⟨first, hfirst⟩ := Option.isSome_iff_exists.mp hsome
  have hmem : callId ∈ outputIdsFor (keptItems (around A calls outputs B)) c.item ↔
      c.item.isAnsweredBy first.item = true := by
    rw [mem_outputIdsFor]
    constructor
    · rintro ⟨y, hy, hkind, hyid⟩
      rwa [(mem_keptItems_around hfirst).mp ⟨hy, hyid⟩] at hkind
    · intro hkind
      obtain ⟨hy, hyid⟩ := (mem_keptItems_around hfirst).mpr rfl
      exact ⟨first, hy, hkind, hyid⟩
  simp only [missingOutput, hcid, hmem, Option.some.injEq, exists_and_left, exists_eq_left', hfirst]
  rcases hkind : c.item.isAnsweredBy first.item with - | - <;> simp

/-- **A batch is stable by position when its piece is.** -/
theorem stableAt_around_iff (h : Batched (around A calls outputs B)) :
    StableAt uuidV5 (around A calls outputs B) A.length (A.length + calls.length - 1)
        (A.length + calls.length - 1 + outputs.length) ↔
      (Piece.batch calls outputs).Stable uuidV5 A := by
  have hpos := hv.call_pos
  have hlen := hv.length_eq
  have hnew := forall_new_around_iff hv hA hB
  refine or_congr ?_ ?_
  · -- new outputs in the reverse of call order
    rw [and_comm]
    have hall := hnew 0
    rw [Nat.add_zero] at hall
    rw [hall]
    exact and_congr_left fun hall => (reverse_around_iff hv hA hB h hall).symm
  · -- the last call and the first output
    obtain ⟨cs, c, hcalls⟩ : ∃ cs c, calls = cs ++ [c] := by
      rcases eq_nil_or_concat calls with hnil | ⟨cs, c, hc⟩
      · exact absurd hnil hv.1
      · exact ⟨cs, c, by rw [hc, concat_eq_append]⟩
    obtain ⟨o, os, houtputs⟩ := exists_cons_of_ne_nil
      (length_pos_iff.mp (by omega : 0 < outputs.length))
    have hlast : itemAt (around A calls outputs B) (A.length + calls.length - 1) = c := by
      have hidx : A.length + calls.length - 1 = A.length + cs.length := by simp [hcalls]
      rw [hidx, itemAt_around_call (by simp [hcalls])]
      simp [hcalls]
    have hnext : A.length + calls.length - 1 + 1 = A.length + calls.length + 0 := by omega
    have hfirst : itemAt (around A calls outputs B) (A.length + calls.length + 0) = o := by
      rw [itemAt_around_output (by omega)]
      simp [houtputs]
    have hdup : isDuplicateOutput (around A calls outputs B) (A.length + calls.length + 0) = true ↔
        ¬ Piece.IsNew A o := by
      have hzero := isDuplicateOutput_around hv hA hB (k := 0) (by omega)
      have ho : outputs[0] = o := by simp [houtputs]
      rw [ho] at hzero
      rw [← hzero, Bool.not_eq_false]
    have hdrop : outputs.drop 1 = os := by simp [houtputs]
    rw [hnew 1, hnext, hdup, hdrop, missingAt, hlast, hfirst]
    constructor
    · rintro ⟨hold, hrest, hmiss⟩
      obtain ⟨callId, hcid, hout, -⟩ := missingOutput_spec hmiss
      obtain ⟨callId', first, hcid', habort, hfind, hkind⟩ :=
        (missingOutput_around_iff hold (hout.trans hcid.symm)).mp hmiss
      exact ⟨cs, c, o, os, callId', first, hcalls, houtputs, hcid', habort, hfind, hkind, hrest⟩
    · rintro ⟨cs', c', o', os', callId, first, hcalls', houtputs', hcid, habort, hfind, hkind, hrest⟩
      obtain ⟨-, hc⟩ := append_inj' (hcalls.symm.trans hcalls') rfl
      cases hc
      cases houtputs.symm.trans houtputs'
      have hoid : o.item.outputCallId = some callId := by
        obtain ⟨item, hitem, rfl⟩ := Option.map_eq_some_iff.mp habort
        rcases c with ⟨call, metadata⟩
        cases call <;> cases hitem <;> rfl
      have hold : ¬ Piece.IsNew A o := fun hnew => by
        have hmem := mem_of_find?_eq_some hfind
        have hfid : first.item.outputCallId = some callId := by simpa using find?_some hfind
        exact hnew first hmem (hfid.trans hoid.symm)
      exact ⟨hold, hrest, (missingOutput_around_iff hold (hoid.trans hcid.symm)).mpr
        ⟨callId, first, hcid, habort, hfind, hkind⟩⟩

end Stability

/-! ### Whole prompts -/

theorem prompt_batch (calls outputs : List ResponseItemEnvelope) :
    prompt (before ++ .batch calls outputs :: after)
      = around (prompt before) calls outputs (prompt after) := by
  simp [prompt, around, Piece.items]

theorem getLast?_prompt (hvalid : ∀ p ∈ pieces, p.Valid)
    {e : ResponseItemEnvelope} (he : (prompt pieces).getLast? = some e) :
    e.item.toolCallId = none := by
  rcases eq_nil_or_concat pieces with rfl | ⟨init, p, rfl⟩
  · cases he
  · have hp := hvalid p (by simp)
    rw [concat_eq_append, prompt_append, prompt, prompt, flatMap_singleton,
      getLast?_append_of_ne_nil _ hp.items_ne_nil] at he
    exact hp.getLast? he

theorem head?_prompt (hvalid : ∀ p ∈ pieces, p.Valid)
    {e : ResponseItemEnvelope} (he : (prompt pieces).head? = some e) :
    e.item.outputCallId = none := by
  rcases pieces with - | ⟨p, pieces⟩
  · cases he
  · have hp := hvalid p (by simp)
    rw [prompt, flatMap_cons, head?_append_of_ne_nil _ hp.items_ne_nil] at he
    exact hp.head? he

variable {pieces : List Piece}

/-- Every call or output of a prompt of valid pieces is in one of its batches. -/
theorem exists_batch (hvalid : ∀ p ∈ pieces, p.Valid)
    (hi : isCallAt (prompt pieces) i ∨ (outputIdAt (prompt pieces) i).isSome) :
    ∃ before calls outputs after k, pieces = before ++ .batch calls outputs :: after ∧
      i = (prompt before).length + k ∧ k < calls.length + outputs.length := by
  have hlen : i < (prompt pieces).length := by
    rcases hi with hi | hi
    · exact lt_length_of_isCallAt hi
    · obtain ⟨callId, hi⟩ := Option.isSome_iff_exists.mp hi
      exact lt_length_of_outputIdAt hi
  obtain ⟨before, p, after, k, rfl, rfl, hk⟩ := exists_piece hlen
  cases p with
  | batch calls outputs => exact ⟨before, calls, outputs, after, k, rfl, rfl, by simpa [Piece.items] using hk⟩
  | item e =>
    have hp := hvalid (.item e) (by simp)
    have hk0 : k = 0 := by simpa [Piece.items] using hk
    have hget : (prompt (before ++ .item e :: after))[(prompt before).length + k]? = some e := by
      rw [prompt_append, hk0]
      simp [prompt, Piece.items]
    rcases hi with hi | hi
    · simp [isCallAt, callIdAt, hget, hp.1] at hi
    · simp [outputIdAt, hget, hp.2] at hi

theorem batchAt_prompt {before after : List Piece} {calls outputs : List ResponseItemEnvelope}
    (hvalid : ∀ p ∈ before ++ .batch calls outputs :: after, p.Valid) :
    BatchAt (around (prompt before) calls outputs (prompt after)) (prompt before).length
      ((prompt before).length + calls.length - 1)
      ((prompt before).length + calls.length - 1 + outputs.length) :=
  batchAt_around (hvalid _ (by simp)) (fun _ => getLast?_prompt fun p hp => hvalid p (by simp [hp]))
    fun _ => head?_prompt fun p hp => hvalid p (by simp [hp])

theorem batched_prompt (hvalid : ∀ p ∈ pieces, p.Valid) : Batched (prompt pieces) := by
  constructor
  · intro c hc
    obtain ⟨before, calls, outputs, after, k, rfl, rfl, hk⟩ := exists_batch hvalid (.inl hc)
    have hb := batchAt_prompt hvalid
    rw [prompt_batch] at hc ⊢
    exact ⟨_, _, _, hb, by omega, hb.call_le hc (by omega)⟩
  · intro i callId hi
    obtain ⟨before, calls, outputs, after, k, rfl, rfl, hk⟩ :=
      exists_batch hvalid (.inr (Option.isSome_iff_exists.mpr ⟨callId, hi⟩))
    have hb := batchAt_prompt hvalid
    rw [prompt_batch] at hi ⊢
    refine ⟨_, _, _, hb, ?_, by omega⟩
    by_contra hle
    have hcall := hb.calls ((prompt before).length + k) (by omega) (by omega)
    rw [isCallAt_of_output hi] at hcall
    cases hcall

/-- Two batches with a common call are the same. -/
theorem BatchAt.unique {items : List ResponseItemEnvelope} {s e f s' e' f' c : ℕ}
    (h : BatchAt items s e f) (h' : BatchAt items s' e' f') (hsc : s ≤ c) (hce : c ≤ e)
    (hsc' : s' ≤ c) (hce' : c ≤ e') : s = s' ∧ e = e' ∧ f = f' := by
  have hstart : ∀ {s e f s' e' f'}, BatchAt items s e f → BatchAt items s' e' f' → c ≤ e →
      s' ≤ c → ¬ s < s' := by
    intro s e f s' e' f' h h' hce hsc' hlt
    have hnot := h'.before (s' - 1) (by omega)
    rw [h.calls (s' - 1) (by omega) (by omega)] at hnot
    cases hnot
  have hend : e = e' := (h.batchEnd hsc hce).symm.trans (h'.batchEnd hsc' hce')
  have hstop : ∀ {s e f s' f'}, BatchAt items s e f → BatchAt items s' e f' → ¬ f < f' := by
    intro s e f s' f' h h' hlt
    have hans := h.answered
    obtain ⟨callId, hid⟩ := h'.outputId (i := f + 1) (by omega) hlt
    rw [h.after] at hid
    cases hid
  subst hend
  have h1 := hstart h h' hce hsc'
  have h2 := hstart h' h hce' hsc
  have h3 := hstop h h'
  have h4 := hstop h' h
  omega

/-- **When normalization leaves a valid prompt alone.** -/
theorem pairingPasses_eq_self_iff (env : Env) (pieces : List Piece)
    (hvalid : ∀ p ∈ pieces, p.Valid) :
    pairingPasses env (prompt pieces) = prompt pieces ↔
      ∀ before p after, pieces = before ++ p :: after → p.Stable env.uuidV5 (prompt before) := by
  have hbatched := batched_prompt hvalid
  constructor
  · rintro hsame before (e | ⟨calls, outputs⟩) after rfl
    · trivial
    · have hb := batchAt_prompt hvalid
      rw [prompt_batch] at hsame hbatched
      refine (stableAt_around_iff (hvalid _ (by simp)) ?_ ?_ hbatched).mp
        (stableAt_of_same hbatched env hsame hb)
      · exact fun _ => getLast?_prompt fun p hp => hvalid p (by simp [hp])
      · exact fun _ => head?_prompt fun p hp => hvalid p (by simp [hp])
  · intro hstable
    refine pairingPasses_eq_self hbatched (fun s e f hb => ?_) env rfl
    obtain ⟨before, calls, outputs, after, k, rfl, hk, hlt⟩ :=
      exists_batch hvalid (.inl (hb.calls s le_rfl hb.nonempty))
    have hb' := batchAt_prompt hvalid
    rw [prompt_batch] at hb hbatched ⊢
    have hpiece := (stableAt_around_iff (hvalid _ (by simp))
      (fun _ => getLast?_prompt fun p hp => hvalid p (by simp [hp]))
      (fun _ => head?_prompt fun p hp => hvalid p (by simp [hp])) hbatched).mpr
      (hstable before _ after rfl)
    have hse := hb'.call_le (hb.calls s le_rfl hb.nonempty) (by omega)
    obtain ⟨rfl, rfl, rfl⟩ := hb.unique hb' le_rfl hb.nonempty (by omega) hse
    exact hpiece

/-! ### Two parallel calls, and an id that comes back -/

def plainEnv : Env := ⟨id, id, Perm.refl⟩

def call (callId : String) : ResponseItemEnvelope := .new (.functionCall none "exec" none "" callId)

def output (callId text : String) : ResponseItemEnvelope :=
  .new (.functionCallOutput none (some callId) none none (.fromText text) none)

/-- Outputs in the reverse of call order are kept. -/
theorem reversed_outputs_are_kept :
    (∀ p ∈ [Piece.batch [call "a", call "b"] [output "b" "2", output "a" "1"]], p.Valid) ∧
    pairingPasses plainEnv (prompt [.batch [call "a", call "b"] [output "b" "2", output "a" "1"]])
      = [call "a", call "b", output "b" "2", output "a" "1"] := by
  have hvalid : ∀ p ∈ [Piece.batch [call "a", call "b"] [output "b" "2", output "a" "1"]],
      p.Valid := by decide
  refine ⟨hvalid, (pairingPasses_eq_self_iff plainEnv _ hvalid).mpr ?_⟩
  intro before p after heq
  obtain ⟨rfl, h⟩ | ⟨_, -, h⟩ := cons_eq_append_iff.mp heq
  · cases h
    exact .inl ⟨by decide, fun o _ x hx => absurd hx not_mem_nil⟩
  · simp at h

/-- **Outputs in call order are reversed, and an id used again loses its output.** -/
theorem outputs_in_call_order_are_reversed :
    ((∀ p ∈ [Piece.batch [call "a", call "b"] [output "a" "1", output "b" "2"]], p.Valid) ∧
      pairingPasses plainEnv
        (prompt [.batch [call "a", call "b"] [output "a" "1", output "b" "2"]])
          = [call "a", call "b", output "b" "2", output "a" "1"] ∧
      pairingPasses plainEnv
        (prompt [.batch [call "a", call "b"] [output "a" "1", output "b" "2"]])
          ≠ prompt [.batch [call "a", call "b"] [output "a" "1", output "b" "2"]]) ∧
    ((∀ p ∈ [Piece.batch [call "a"] [output "a" "1"], .batch [call "a"] [output "a" "2"]],
        p.Valid) ∧
      pairingPasses plainEnv
        (prompt [.batch [call "a"] [output "a" "1"], .batch [call "a"] [output "a" "2"]])
          = [call "a", output "a" "1", call "a"] ∧
      pairingPasses plainEnv
        (prompt [.batch [call "a"] [output "a" "1"], .batch [call "a"] [output "a" "2"]])
          ≠ prompt [.batch [call "a"] [output "a" "1"], .batch [call "a"] [output "a" "2"]]) := by
  decide

end Normalize

end CodexPlus
