import CodexaCoin.Script.SigHash

/-!
# Reading a script instruction by instruction

What `CScript::GetOp` reads from scripts that are made of pushes and plain opcodes.
-/

namespace CodexaCoin

theorem readOperand_suffix {opcode nSize : Nat} {l r : CScript} {op : ScriptOp}
    (h : readOperand opcode nSize l = some (op, r)) : ∃ m, l = m ++ r := by
  unfold readOperand at h
  split at h
  · cases h
  · cases h
    exact ⟨l.take nSize, (List.take_append_drop nSize l).symm⟩

theorem readLE_suffix {w n : Nat} {l r : CScript} (h : readLE w l = some (n, r)) : ∃ m, l = m ++ r := by
  induction w generalizing n l r with
  | zero =>
    cases h
    exact ⟨[], rfl⟩
  | succ w ih =>
    cases l with
    | nil => cases h
    | cons b l =>
      rw [readLE, Option.map_eq_some_iff] at h
      obtain ⟨⟨n', r'⟩, hr, heq⟩ := h
      cases heq
      obtain ⟨m, rfl⟩ := ih hr
      exact ⟨b :: m, rfl⟩

theorem readLE_readOperand_suffix {w opcode : Nat} {l r : CScript} {op : ScriptOp}
    (h : ((readLE w l).bind fun p => readOperand opcode p.1 p.2) = some (op, r)) : ∃ m, l = m ++ r := by
  obtain ⟨⟨n, r'⟩, hlen, hdata⟩ := Option.bind_eq_some_iff.1 h
  obtain ⟨m, rfl⟩ := readLE_suffix hlen
  obtain ⟨m', hm'⟩ := readOperand_suffix hdata
  exact ⟨m ++ m', by rw [List.append_assoc, ← hm']⟩

theorem getScriptOp_suffix {pc pc' : CScript} {op : ScriptOp} (h : getScriptOp pc = some (op, pc')) :
    ∃ b l, pc = b :: l ++ pc' := by
  cases pc with
  | nil => cases h
  | cons b pc =>
    suffices hsplit : ∃ m, pc = m ++ pc' by
      obtain ⟨m, rfl⟩ := hsplit
      exact ⟨b, m, rfl⟩
    unfold getScriptOp at h
    dsimp only at h
    split at h
    · exact readOperand_suffix h
    · split at h
      · exact readLE_readOperand_suffix h
      · split at h
        · exact readLE_readOperand_suffix h
        · split at h
          · exact readLE_readOperand_suffix h
          · cases h
            exact ⟨[], rfl⟩

theorem length_lt_of_getScriptOp {pc pc' : CScript} {op : ScriptOp} (h : getScriptOp pc = some (op, pc')) :
    pc'.length < pc.length := by
  obtain ⟨b, l, rfl⟩ := getScriptOp_suffix h
  simp only [List.cons_append, List.length_cons, List.length_append]
  omega

theorem scriptOpsAux_eq {fuel : Nat} {pc : CScript} (h : pc.length ≤ fuel) : scriptOpsAux fuel pc = scriptOps pc := by
  suffices hgen : ∀ (n m : Nat) (pc : CScript), pc.length ≤ n → pc.length ≤ m → scriptOpsAux n pc = scriptOpsAux m pc from
    hgen _ _ _ h (Nat.le_refl _)
  intro n
  induction n with
  | zero =>
    intro m pc hn hm
    obtain rfl := List.eq_nil_of_length_eq_zero (Nat.le_zero.1 hn)
    cases m <;> rfl
  | succ n ih =>
    intro m pc hn hm
    cases m with
    | zero =>
      obtain rfl := List.eq_nil_of_length_eq_zero (Nat.le_zero.1 hm)
      rfl
    | succ m =>
      rw [scriptOpsAux, scriptOpsAux]
      split
      · rfl
      · cases hop : getScriptOp pc with
        | none => rfl
        | some r =>
          have hlt := length_lt_of_getScriptOp hop
          simp only
          rw [ih m r.2 (by omega) (by omega)]

/-- **The instructions of a script are the first one and those of the rest.** -/
theorem scriptOps_cons {pc pc' : CScript} {op : ScriptOp} (h : getScriptOp pc = some (op, pc')) :
    scriptOps pc = (op :: (scriptOps pc').1, (scriptOps pc').2) := by
  have hlt := length_lt_of_getScriptOp h
  obtain ⟨n, hn⟩ : ∃ n, pc.length = n + 1 := ⟨pc.length - 1, by omega⟩
  have hne : pc.isEmpty = false := by cases pc <;> simp_all
  rw [scriptOps, hn, scriptOpsAux, hne]
  simp only [Bool.false_eq_true, if_false, h]
  rw [scriptOpsAux_eq (by omega)]

theorem getScriptOp_pushed {data : List UInt8} (h : data.length < opPushdata1) (rest : CScript) :
    getScriptOp (UInt8.ofNat data.length :: (data ++ rest)) = some ((data.length, data), rest) := by
  have hpush : opPushdata1 = 0x4c := rfl
  have hlen : (UInt8.ofNat data.length).toNat = data.length := by
    rw [UInt8.toNat_ofNat', Nat.mod_eq_of_lt (by omega)]
  rw [getScriptOp, hlen, if_pos h, readOperand, if_neg (by simp), List.take_left, List.drop_left]

def pushed (data : List UInt8) : CScript := UInt8.ofNat data.length :: data

theorem scriptOps_pushes {items : List (List UInt8)} (h : ∀ data ∈ items, data.length < opPushdata1) (rest : CScript) :
    scriptOps ((items.map pushed).flatten ++ rest) =
      ((items.map fun data => (data.length, data)) ++ (scriptOps rest).1, (scriptOps rest).2) := by
  induction items with
  | nil => rfl
  | cons data items ih =>
    have hfirst := getScriptOp_pushed (h data List.mem_cons_self) ((items.map pushed).flatten ++ rest)
    rw [List.map_cons, List.flatten_cons, pushed, List.cons_append, List.cons_append, List.append_assoc,
      scriptOps_cons hfirst, ih fun d hd => h d (List.mem_cons_of_mem _ hd)]
    rfl

theorem getScriptOp_opcode {b : UInt8} (h : opPushdata4 < b.toNat) (rest : CScript) :
    getScriptOp (b :: rest) = some ((b.toNat, []), rest) := by
  have h1 : opPushdata1 = 0x4c := rfl
  have h2 : opPushdata2 = 0x4d := rfl
  have h4 : opPushdata4 = 0x4e := rfl
  rw [getScriptOp, if_neg (by omega), if_neg (by omega), if_neg (by omega), if_neg (by omega)]

/-- **A script without `OP_CODESEPARATOR` is hashed as it is.** -/
theorem withoutCodeSeparators_eq_self {script : CScript} (h : ∀ op ∈ (scriptOps script).1, op.1 ≠ 0xab) (fuel : Nat) :
    withoutCodeSeparators fuel script = script := by
  induction fuel generalizing script with
  | zero => rfl
  | succ fuel ih =>
    rw [withoutCodeSeparators]
    cases hop : getScriptOp script with
    | none => rfl
    | some r =>
      obtain ⟨op, pc'⟩ := r
      rw [scriptOps_cons hop] at h
      have hhead : op.1 ≠ 0xab := h op List.mem_cons_self
      have hrest := ih fun op' hmem => h op' (List.mem_cons_of_mem _ hmem)
      obtain ⟨b, l, rfl⟩ := getScriptOp_suffix hop
      have hcut : (b :: l ++ pc').length - pc'.length = (b :: l).length := by
        rw [List.length_append, Nat.add_sub_cancel]
      simp only [if_neg hhead, hrest, hcut, List.take_left]

end CodexaCoin
