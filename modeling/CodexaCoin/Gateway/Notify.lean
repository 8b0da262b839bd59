import CodexaCoin.Gateway.Amounts
import CodexaCoin.Lib.Table

/-!
# Notifications of incoming payments

`push_mobile_register` of `vps-gateway/app.py` and `check_incoming_payments` of `vps-gateway/mobile_notify.py`.
-/

namespace CodexaCoin.Gateway

open Table Double

/-! ## The amount in the text -/

/-- The number that `{delta / COIN:.8f}` prints, in units of the last digit. -/
def shownAmount (delta : Int) : Int := roundEven (inCoins delta * coinSatoshis)

/-- **Amounts below 2²⁶ coins are printed without an error.** -/
theorem shownAmount_eq {delta : Int} (hpos : 0 < delta) (h : delta < 6710886400000000) : shownAmount delta = delta := by
  have herror : |inCoins delta * coinSatoshis - delta| ≤ 2 ^ ((26 : Int) - 53) / 2 * coinSatoshis :=
    abs_inCoins_mul_sub_le (abs_div_coinSatoshis_lt (k := 26) hpos.le (by omega))
  refine roundEven_eq (herror.trans_lt ?_)
  norm_num [coinSatoshis]

theorem shownAmount_coin : shownAmount 100000000 = 100000000 := shownAmount_eq (by decide) (by decide)

/-- Of more than 2²⁶ coins a unit too much may be printed. -/
example : shownAmount 13421772800000002 = 13421772800000003 := by decide +kernel

/-! ## The table of registrations -/

/-- A row of `mobile_push_registrations`. -/
structure Registration where
  id : Nat
  address : String
  platform : String
  token : String
  lastNotifiedBalance : Int
deriving DecidableEq, Repr

/-- The columns of the `UNIQUE` constraint. -/
abbrev Registration.key (r : Registration) : String × String := (r.address, r.token)

structure Registrations where
  rows : List Registration := []
  nextId : Nat := 1
  id_lt : ∀ r ∈ rows, r.id < nextId := by decide
  id_unique : (rows.map (·.id)).Nodup := by decide
  key_unique : (rows.map (·.key)).Nodup := by decide

namespace Registrations

variable (db : Registrations)

/-- `UPDATE … SET u WHERE p`, of columns without constraints. -/
def update (p : Registration → Bool) (u : Registration → Registration) (hid : ∀ r, (u r).id = r.id)
    (hkey : ∀ r, (u r).key = r.key) : Registrations where
  rows := updateWhere p u db.rows
  nextId := db.nextId
  id_lt := by
    intro r hr
    obtain ⟨r', hr', rfl⟩ := mem_updateWhere.1 hr
    split
    · rw [hid]
      exact db.id_lt r' hr'
    · exact db.id_lt r' hr'
  id_unique := by
    rw [map_updateWhere hid]
    exact db.id_unique
  key_unique := by
    rw [map_updateWhere hkey]
    exact db.key_unique

def insert (address platform token : String) : Registrations :=
  if h : (address, token) ∈ db.rows.map (·.key) then
    db.update (fun r => r.key = (address, token)) ({ · with platform := platform }) (fun _ => rfl) fun _ => rfl
  else
    { rows := db.rows ++ [⟨db.nextId, address, platform, token, 0⟩]
      nextId := db.nextId + 1
      id_lt := by
        intro r hr
        rcases List.mem_append.1 hr with hr | hr
        · exact Nat.lt_succ_of_lt (db.id_lt r hr)
        · rw [List.mem_singleton.1 hr]
          exact Nat.lt_succ_self _
      id_unique := by
        refine nodup_insert db.id_unique ?_
        rw [List.mem_map]
        rintro ⟨r, hr, hid⟩
        exact absurd hid (db.id_lt r hr).ne
      key_unique := nodup_insert db.key_unique h }

/-- The `UPDATE` at the end of a notification. -/
def setLastNotified (id : Nat) (balance : Int) : Registrations :=
  db.update (·.id = id) ({ · with lastNotifiedBalance := balance }) (fun _ => rfl) fun _ => rfl

variable {db} {address platform token : String}

theorem eq_of_id {r r' : Registration} (hr : r ∈ db.rows) (hr' : r' ∈ db.rows) (h : r.id = r'.id) : r = r' :=
  List.inj_on_of_nodup_map db.id_unique hr hr' h

theorem keys_update {p : Registration → Bool} {u : Registration → Registration} (hid : ∀ r, (u r).id = r.id)
    (hkey : ∀ r, (u r).key = r.key) : (db.update p u hid hkey).rows.map (·.key) = db.rows.map (·.key) :=
      map_updateWhere hkey

theorem keys_insert {key : String × String} :
    key ∈ (db.insert address platform token).rows.map (·.key) ↔ key ∈ db.rows.map (·.key) ∨ key = (address, token) := by
  unfold insert
  split
  next h =>
    rw [keys_update]
    exact ⟨.inl, fun hkey => hkey.elim id fun heq => heq ▸ h⟩
  next => simp [Registration.key]

theorem mem_insert {r : Registration}
    (hr : r ∈ (db.insert address platform token).rows) :
    (∃ r0 ∈ db.rows, r.key = r0.key ∧ r.lastNotifiedBalance = r0.lastNotifiedBalance) ∨
      ((address, token) ∉ db.rows.map (·.key) ∧ r.key = (address, token) ∧ r.lastNotifiedBalance = 0) := by
  unfold insert at hr
  split at hr
  next =>
    obtain ⟨r0, hr0, rfl⟩ := mem_updateWhere.1 hr
    refine .inl ⟨r0, hr0, ?_⟩
    split <;> exact ⟨rfl, rfl⟩
  next h =>
    rcases List.mem_append.1 hr with hr | hr
    · exact .inl ⟨r, hr, rfl, rfl⟩
    · rw [List.mem_singleton.1 hr]
      exact .inr ⟨h, rfl, rfl⟩

theorem exists_mem_insert {r : Registration} (hr : r ∈ db.rows) :
    ∃ r' ∈ (db.insert address platform token).rows, r'.key = r.key ∧ r'.lastNotifiedBalance = r.lastNotifiedBalance := by
  unfold insert
  split
  · refine ⟨_, mem_updateWhere.2 ⟨r, hr, rfl⟩, ?_⟩
    split <;> exact ⟨rfl, rfl⟩
  · exact ⟨r, List.mem_append_left _ hr, rfl, rfl⟩

theorem eq_of_key {r r' : Registration} (hr : r ∈ db.rows) (hr' : r' ∈ db.rows) (h : r.key = r'.key) : r = r' :=
  List.inj_on_of_nodup_map db.key_unique hr hr' h

end Registrations

/-! ## The handler and the pass -/

structure RegisterBody where
  address : Option String
  platform : Option String
  token : Option String
deriving DecidableEq, Repr

/-- An answer of `error`. -/
structure ApiError where
  code : String
  message : String
  status : Nat
deriving DecidableEq, Repr

/-- Python's `not s` of a field. -/
def isMissing (s : Option String) : Bool := s = none || s = some ""

/-- The checks of `push_mobile_register`. -/
def checkRegister (isValidAddress : String → Bool) (body : RegisterBody) : Except ApiError (String × String × String) :=
  if isMissing body.address || !(body.platform = some "android" || body.platform = some "ios") ||
      isMissing body.token then
    .error ⟨"invalid-request", "address, platform ('android'|'ios'), and token are required", 400⟩
  else if !isValidAddress (body.address.getD "") then .error ⟨"invalid-address", "Not a valid CodexaCoin address", 400⟩
  else .ok (body.address.getD "", body.platform.getD "", body.token.getD "")

theorem isValidAddress_of_checkRegister {isValidAddress : String → Bool} {body : RegisterBody}
    {args : String × String × String}
      (h : checkRegister isValidAddress body = .ok args) : isValidAddress args.1 = true := by
  unfold checkRegister at h
  split at h
  · cases h
  split at h
  · cases h
  next hvalid =>
    cases h
    simpa using hvalid

def pushMobileRegister (isValidAddress : String → Bool) (body : RegisterBody) (db : Registrations) :
    Except ApiError Registrations :=
  (checkRegister isValidAddress body).map fun (address, platform, token) => db.insert address platform token

/-- What the node answers during a pass: `validateaddress`, and the amounts of `listunspent` or a failed call. -/
structure NodeView where
  isValidAddress : String → Bool
  listUnspent : String → Option (List Int)

/-- The text with an amount of so many units of the last of its eight digits. -/
def receivedText (amount : Int) : String :=
  let digits := toString (amount % 100000000).toNat
  "You received " ++ toString (amount / 100000000) ++ "." ++ "".pushn '0' (8 - digits.length) ++ digits ++ " CAC."

structure Notification where
  token : String
  title : String
  body : String
  address : String
  amount : Int
deriving DecidableEq, Repr

/-- `by_address.setdefault(…).append`. -/
def appendTo (groups : List (String × List Registration)) (r : Registration) : List (String × List Registration) :=
  if r.address ∈ groups.map (·.1) then groups.map fun g => if g.1 = r.address then (g.1, g.2 ++ [r]) else g
  else groups ++ [(r.address, [r])]

def byAddress (registrations : List Registration) : List (String × List Registration) := registrations.foldl appendTo []

/-- The notification of a registration, if the balance has grown. -/
def notificationFor (currentBalance : Int) (r : Registration) : Option Notification :=
  if r.lastNotifiedBalance < currentBalance then
    let amount := shownAmount (currentBalance - r.lastNotifiedBalance)
    some ⟨r.token, "Payment received", receivedText amount, r.address, amount⟩
  else none

def checkRegistration (currentBalance : Int) (acc : Registrations × List Notification) (r : Registration) :
    Registrations × List Notification :=
  (if currentBalance ≠ r.lastNotifiedBalance then acc.1.setLastNotified r.id currentBalance else acc.1,
    acc.2 ++ (notificationFor currentBalance r).toList)

def checkAddress (node : NodeView) (acc : Registrations × List Notification) (group : String × List Registration) :
    Registrations × List Notification :=
  if !node.isValidAddress group.1 then acc
  else match node.listUnspent group.1 with
    | none => acc
    | some utxos => group.2.foldl (checkRegistration utxos.sum) acc

def checkIncomingPayments (node : NodeView) (db : Registrations) : Registrations × List Notification :=
  (byAddress db.rows).foldl (checkAddress node) (db, [])

/-! ### What a pass does -/

def NodeView.balance (node : NodeView) (address : String) : Option Int :=
  if node.isValidAddress address then (node.listUnspent address).map List.sum else none

def Registration.settled (node : NodeView) (r : Registration) : Registration :=
  { r with lastNotifiedBalance := (node.balance r.address).getD r.lastNotifiedBalance }

def Registration.notification (node : NodeView) (r : Registration) : Option Notification :=
  (node.balance r.address).bind (notificationFor · r)

section Pass

variable {node : NodeView} {db : Registrations} {acc : Registrations × List Notification}

/-- The body of the inner loop for an address that may have been skipped. -/
def checkOne (node : NodeView) (acc : Registrations × List Notification) (r : Registration) :
    Registrations × List Notification :=
  match node.balance r.address with
  | none => acc
  | some balance => checkRegistration balance acc r

/-- Each address has one group, and the registrations in it are of that address. -/
structure Grouped (groups : List (String × List Registration)) : Prop where
  nodup : (groups.map (·.1)).Nodup
  address : ∀ g ∈ groups, ∀ r ∈ g.2, r.address = g.1

theorem Grouped.appendTo {groups : List (String × List Registration)} (h : Grouped groups) (r : Registration) :
    Grouped (appendTo groups r) := by
  unfold Gateway.appendTo
  split
  · refine ⟨?_, ?_⟩
    · have hkeys : (groups.map fun g => if g.1 = r.address then (g.1, g.2 ++ [r]) else g).map (·.1) =
          groups.map (·.1) := by
        rw [List.map_map]
        refine List.map_congr_left fun g _ => ?_
        rw [Function.comp_apply]
        split <;> rfl
      rw [hkeys]
      exact h.nodup
    · intro g hg r' hr'
      obtain ⟨g, hmem, rfl⟩ := List.mem_map.1 hg
      split at hr' <;> rename_i heq
      · rw [if_pos heq]
        rcases List.mem_append.1 hr' with hr' | hr'
        · exact h.address g hmem r' hr'
        · rw [List.mem_singleton.1 hr', heq]
      · rw [if_neg heq]
        exact h.address g hmem r' hr'
  next hnew =>
    refine ⟨nodup_insert h.nodup hnew, ?_⟩
    intro g hg r' hr'
    rcases List.mem_append.1 hg with hg | hg
    · exact h.address g hg r' hr'
    · obtain rfl := List.mem_singleton.1 hg
      rw [List.mem_singleton.1 hr']

theorem Grouped.perm_appendTo {groups : List (String × List Registration)} (h : Grouped groups) (r : Registration) :
    ((Gateway.appendTo groups r).flatMap (·.2)).Perm (groups.flatMap (·.2) ++ [r]) := by
  have hnodup := h.nodup
  clear h
  unfold Gateway.appendTo
  split
  next hmem =>
    induction groups with
    | nil => cases hmem
    | cons g groups ih =>
      rw [List.map_cons, List.nodup_cons] at hnodup
      rw [List.map_cons, List.flatMap_cons, List.flatMap_cons]
      by_cases hg : g.1 = r.address
      · have hrest : (groups.map fun g => if g.1 = r.address then (g.1, g.2 ++ [r]) else g) = groups := by
          refine (List.map_congr_left fun g' hg' => if_neg fun heq => hnodup.1 ?_).trans (List.map_id groups)
          rw [hg, ← heq]
          exact List.mem_map_of_mem hg'
        rw [if_pos hg, hrest, List.append_assoc, List.append_assoc]
        exact (List.perm_append_comm).append_left _
      · rw [if_neg hg, List.append_assoc]
        refine (ih hnodup.2 ?_).append_left _
        rcases List.mem_cons.1 hmem with heq | hmem
        · exact absurd heq.symm hg
        · exact hmem
  next => simp

theorem byAddress_spec (rows : List Registration) :
    Grouped (byAddress rows) ∧ ((byAddress rows).flatMap (·.2)).Perm rows := by
  induction rows using List.reverseRecOn with
  | nil => exact ⟨⟨List.nodup_nil, fun g hg => by cases hg⟩, .nil⟩
  | append_singleton rows r ih =>
    rw [byAddress, List.foldl_append]
    exact ⟨ih.1.appendTo r, (ih.1.perm_appendTo r).trans (ih.2.append_right [r])⟩

theorem checkAddress_eq (acc : Registrations × List Notification) {group : String × List Registration}
    (h : ∀ r ∈ group.2, r.address = group.1) : checkAddress node acc group = group.2.foldl (checkOne node) acc := by
  have hone : ∀ acc, ∀ r ∈ group.2, checkOne node acc r =
      match node.balance group.1 with
      | none => acc
      | some balance => checkRegistration balance acc r := fun acc r hr => by rw [checkOne, h r hr]
  rw [List.foldl_ext _ _ _ hone]
  have hskip : ∀ regs : List Registration, regs.foldl (fun acc _ => acc) acc = acc := fun regs => by
    induction regs with
    | nil => rfl
    | cons r regs ih => exact ih
  unfold checkAddress NodeView.balance
  cases node.isValidAddress group.1
  · exact (hskip _).symm
  · cases node.listUnspent group.1 with
    | none => exact (hskip _).symm
    | some utxos => rfl

variable (node db) in
theorem checkIncomingPayments_eq : ∃ order : List Registration, order.Perm db.rows ∧
    checkIncomingPayments node db = order.foldl (checkOne node) (db, []) := by
  obtain ⟨hgrouped, hperm⟩ := byAddress_spec db.rows
  refine ⟨_, hperm, ?_⟩
  rw [List.foldl_flatMap]
  exact List.foldl_ext _ _ _ fun acc g hg => checkAddress_eq acc (hgrouped.address g hg)

variable (node) in
theorem checkOne_rows {r : Registration} (hr : r ∈ acc.1.rows) :
    (checkOne node acc r).1.rows = acc.1.rows.map fun r' => if r' = r then r'.settled node else r' := by
  obtain ⟨db, ns⟩ := acc
  have hsame : ∀ {u : Registration → Registration}, (∀ r', r' = r → r'.settled node = u r') →
      updateWhere (fun r' => decide (r'.id = r.id)) u db.rows =
        db.rows.map fun r' => if r' = r then r'.settled node else r' := by
    intro u hu
    refine List.map_congr_left fun r' hr' => ?_
    by_cases heq : r' = r
    · rw [if_pos heq, hu r' heq, if_pos (decide_eq_true (congrArg _ heq))]
    · rw [if_neg heq, if_neg fun hid => heq (Registrations.eq_of_id hr' hr (of_decide_eq_true hid))]
  have hkeep : (∀ r', r' = r → r'.settled node = r') →
      db.rows = db.rows.map fun r' => if r' = r then r'.settled node else r' := by
    intro h
    refine (List.map_id db.rows).symm.trans (List.map_congr_left fun r' _ => ?_)
    split <;> rename_i heq
    · exact (h r' heq).symm
    · rfl
  unfold checkOne
  cases hbalance : node.balance r.address with
  | none =>
    refine hkeep ?_
    rintro r' rfl
    rw [Registration.settled, hbalance]
    rfl
  | some balance =>
    have hsettled : r.settled node =
        { r with lastNotifiedBalance := balance } := by rw [Registration.settled, hbalance]; rfl
    show (if balance ≠ r.lastNotifiedBalance then db.setLastNotified r.id balance else db).rows = _
    split <;> rename_i heq
    · exact hsame fun r' hr' => by rw [hr', hsettled]
    · refine hkeep ?_
      rintro r' rfl
      rw [hsettled, not_not.1 heq]

theorem settled_settled (r : Registration) : (r.settled node).settled node = r.settled node := by
  unfold Registration.settled
  cases node.balance r.address <;> rfl

theorem foldl_checkOne_rows {order : List Registration} (hnodup : order.Nodup) (hsub : ∀ r ∈ order, r ∈ acc.1.rows) :
    (order.foldl (checkOne node) acc).1.rows = acc.1.rows.map fun r => if r ∈ order then r.settled node else r := by
  induction order generalizing acc with
  | nil => simp
  | cons r order ih =>
    rw [List.nodup_cons] at hnodup
    have hfirst := checkOne_rows node (hsub r List.mem_cons_self)
    rw [List.foldl_cons]
    refine (ih hnodup.2 fun r' hr' => ?_).trans ?_
    · rw [hfirst, List.mem_map]
      exact ⟨r', hsub r' (List.mem_cons_of_mem r hr'), if_neg fun heq : r' = r => hnodup.1 (heq ▸ hr')⟩
    · rw [hfirst, List.map_map]
      refine List.map_congr_left fun r' _ => ?_
      rw [Function.comp_apply]
      by_cases heq : r' = r
      · have hmem : r' ∈ r :: order := heq ▸ List.mem_cons_self
        rw [if_pos heq, if_pos hmem]
        split
        · exact settled_settled r'
        · rfl
      · rw [if_neg heq]
        simp only [List.mem_cons, heq, false_or]

theorem foldl_checkOne_notifications (order : List Registration) :
    (order.foldl (checkOne node) acc).2 = acc.2 ++ order.filterMap (·.notification node) := by
  induction order generalizing acc with
  | nil => simp
  | cons r order ih =>
    have hfirst : (checkOne node acc r).2 = acc.2 ++ (r.notification node).toList := by
      unfold checkOne Registration.notification
      cases node.balance r.address <;> simp [checkRegistration]
    rw [List.foldl_cons, ih, hfirst, List.append_assoc]
    cases hr : r.notification node <;> simp [hr]

/-- **A pass settles every registration.** -/
theorem checkIncomingPayments_rows : (checkIncomingPayments node db).1.rows = db.rows.map (·.settled node) := by
  obtain ⟨order, hperm, heq⟩ := checkIncomingPayments_eq node db
  rw [heq, foldl_checkOne_rows (hperm.nodup_iff.2 (List.Nodup.of_map _ db.id_unique)) fun r hr => hperm.mem_iff.1 hr]
  exact List.map_congr_left fun r hr => if_pos (hperm.mem_iff.2 hr)

variable (node db) in
theorem checkIncomingPayments_notifications : ∃ order : List Registration, order.Perm db.rows ∧
    (checkIncomingPayments node db).2 = order.filterMap (·.notification node) := by
  obtain ⟨order, hperm, heq⟩ := checkIncomingPayments_eq node db
  exact ⟨order, hperm, by rw [heq, foldl_checkOne_notifications, List.nil_append]⟩

theorem mem_checkIncomingPayments {n : Notification} :
    n ∈ (checkIncomingPayments node db).2 ↔ ∃ r ∈ db.rows, r.notification node = some n := by
  obtain ⟨order, hperm, heq⟩ := checkIncomingPayments_notifications node db
  rw [heq, List.mem_filterMap]
  exact exists_congr fun r => and_congr_left fun _ => hperm.mem_iff

end Pass

/-! ## What is announced -/

def addressedTo (address token : String) (n : Notification) : Bool := n.address = address && n.token = token

def announced (address token : String) (ns : List Notification) : Int :=
  sumWhere (addressedTo address token) (·.amount) ns

section Announced

variable {node : NodeView} {db : Registrations} {r : Registration} {n : Notification} {address token : String}

theorem notification_eq_some (h : r.notification node = some n) : ∃ balance, node.balance r.address = some balance ∧
    r.lastNotifiedBalance < balance ∧ n.amount = shownAmount (balance - r.lastNotifiedBalance) ∧
    n.address = r.address ∧ n.token = r.token := by
  obtain ⟨balance, hbalance, hfor⟩ := Option.bind_eq_some_iff.1 h
  unfold notificationFor at hfor
  split at hfor
  next hlt =>
    cases hfor
    exact ⟨balance, hbalance, hlt, rfl, rfl, rfl⟩
  next => cases hfor

theorem addressedTo_iff_key (h : r.notification node = some n) :
    addressedTo address token n = true ↔ r.key = (address, token) := by
  obtain ⟨-, -, -, -, haddress, htoken⟩ := notification_eq_some h
  simp [addressedTo, haddress, htoken, Registration.key]

theorem announced_pass (hr : r ∈ db.rows) (hkey : r.key = (address, token)) :
    announced address token (checkIncomingPayments node db).2 = (r.notification node).elim 0 (·.amount) := by
  obtain ⟨order, hperm, heq⟩ := checkIncomingPayments_notifications node db
  rw [announced, heq, sumWhere_filterMap, sumWhere_perm hperm, sumWhere_eq_single db.key_unique hr]
  · cases hn : r.notification node with
    | none => rfl
    | some n => rw [Option.any_some, if_pos ((addressedTo_iff_key hn).2 hkey)]
  · intro r' _ hr'
    obtain ⟨n, hn, hto⟩ := (Option.any_eq_true _ _).1 hr'
    rw [hkey]
    exact (addressedTo_iff_key hn).1 hto

theorem announced_pass_eq_zero (h : (address, token) ∉ db.rows.map (·.key)) :
    announced address token (checkIncomingPayments node db).2 = 0 := by
  refine sumWhere_eq_zero fun n hn hto => absurd ?_ h
  obtain ⟨r, hr, hnotification⟩ := mem_checkIncomingPayments.1 hn
  rw [← (addressedTo_iff_key hnotification).1 hto]
  exact List.mem_map_of_mem hr

theorem announced_append (ns ns' : List Notification) :
    announced address token (ns ++ ns') = announced address token ns + announced address token ns' := sumWhere_append ns'

end Announced

end CodexaCoin.Gateway
