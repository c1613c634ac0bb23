import PiggyOs.PrintfDigits
import PiggyOs.CString
import PiggyOs.Runs

/-! `strtok_r`, called again and again on one string. -/
namespace PiggyOs.Strtok
open ByteMemory Function Runs
open PiggyOs.Printf (Byte Text)

/-- The place where a loop stops that goes on from `p`, and the addresses that it reads on the way. -/
def scan (stop : Byte → Bool) (m : Memory) : ℕ → ℕ → Option (ℕ × List ℕ)
  | 0, _ => none
  | fuel + 1, p => if stop (m p) then some (p, [p]) else (scan stop m fuel (p + 1)).map fun r => (r.1, p :: r.2)

/-- `str1 + strspn(str1, str2)`. -/
def strspn (m : Memory) (str2 : CString) (fuel str1 : ℕ) : Option (ℕ × List ℕ) :=
  scan (fun c => c = 0 ∨ c ∉ str2.1) m fuel str1

def strpbrk (m : Memory) (str2 : CString) (fuel str1 : ℕ) : Option (Option ℕ × List ℕ) :=
  (scan (fun c => c = 0 ∨ c ∈ str2.1) m fuel str1).map fun r => (if m r.1 = 0 then none else some r.1, r.2)

/-- `strchr(str, '\0')`. -/
def strchrEnd (m : Memory) (fuel str : ℕ) : Option (ℕ × List ℕ) := scan (fun c => c = 0) m fuel str

structure State where
  mem : Memory
  saveptr : ℕ

/-- The token, the state behind the call, and the addresses in the string that are read or written. -/
def strtokR (seperators : CString) (fuel : ℕ) (str : Option ℕ) (st : State) : Option (Option ℕ × State × List ℕ) :=
  (strspn st.mem seperators fuel (str.getD st.saveptr)).bind fun token =>
    if st.mem token.1 = 0 then some (none, { st with saveptr := token.1 }, token.2 ++ [token.1])
    else (strpbrk st.mem seperators fuel token.1).bind fun str =>
      str.1.elim
        ((strchrEnd st.mem fuel token.1).map fun r =>
          (some token.1, { st with saveptr := r.1 }, token.2 ++ [token.1] ++ str.2 ++ r.2))
        fun stop => some (some token.1, ⟨update st.mem stop 0, stop + 1⟩, token.2 ++ [token.1] ++ str.2 ++ [stop])

structure Session where
  results : List (Option ℕ)
  state : State
  accesses : List ℕ

/-- The first `n` calls; only the first of them is given the string. -/
def session (seperators : CString) (fuel s : ℕ) (st : State) : ℕ → Option Session
  | 0 => some ⟨[], st, []⟩
  | n + 1 => (session seperators fuel s st n).bind fun r =>
      (strtokR seperators fuel (if n = 0 then some s else none) r.state).map fun q =>
        ⟨r.results ++ [q.1], q.2.1, r.accesses ++ q.2.2⟩

lemma scan_eq {stop : Byte → Bool} {m : Memory} {p e fuel : ℕ} (hpe : p ≤ e)
    (hgo : ∀ k, p ≤ k → k < e → stop (m k) = false) (hstop : stop (m e) = true) (hfuel : e - p < fuel) :
    scan stop m fuel p = some (e, List.range' p (e + 1 - p)) := by
  induction fuel generalizing p with
  | zero => omega
  | succ fuel ih =>
    obtain rfl | hlt := Nat.eq_or_lt_of_le hpe
    · rw [scan, if_pos hstop, Nat.add_sub_cancel_left, List.range'_one]
    · rw [scan, hgo p le_rfl hlt, if_neg Bool.false_ne_true, ih hlt (fun k hk => hgo k (by omega)) (by omega),
        show e + 1 - p = e + 1 - (p + 1) + 1 by omega, List.range'_succ]
      rfl

variable {m : Memory} {s p fuel : ℕ} {l seperators : CString}

/-- The string has not been changed from `p` on. -/
def Rest (m : Memory) (s : ℕ) (l : CString) (p : ℕ) : Prop := ∀ k, p ≤ k → k ≤ l.1.length → m (s + k) = l.1.getD k 0

lemma Rest.of_any (h : Rest m s l p) {P : Byte → Bool} {k : ℕ} (hk : p ≤ k) (hany : l.1[k]?.any P) :
    k < l.1.length ∧ m (s + k) ≠ 0 ∧ P (m (s + k)) := by
  obtain ⟨c, hc, hP⟩ := (Option.any_eq_true ..).mp hany
  obtain ⟨hlt, hget⟩ := List.getElem?_eq_some_iff.mp hc
  have hm : m (s + k) = c := by rw [h k hk hlt.le, List.getD_eq_getElem?_getD, hc, Option.getD_some]
  rw [hm]
  exact ⟨hlt, ne_of_mem_of_not_mem (hget ▸ List.getElem_mem hlt) l.2, hP⟩

lemma Rest.at_end (h : Rest m s l p) (hp : p ≤ l.1.length) : m (s + l.1.length) = 0 := by
  rw [h _ hp le_rfl, List.getD_eq_getElem?_getD, List.getElem?_eq_none le_rfl, Option.getD_none]

/-- A loop over the rest of the string ends at the terminator at the latest. -/
lemma Rest.scan (h : Rest m s l p) (hp : p ≤ l.1.length) (P : Byte → Bool) (hfuel : l.1.length < fuel) :
    ∃ e, p ≤ e ∧ e ≤ l.1.length ∧ (∀ k, p ≤ k → k < e → l.1[k]?.any P) ∧
      (e = l.1.length ∨ l.1[e]?.any fun c => !P c) ∧
      scan (fun c => c = 0 ∨ P c = false) m fuel (s + p) = some (s + e, List.range' (s + p) (e + 1 - p)) := by
  obtain ⟨e, hpe, he, hall, hstop⟩ := exists_stop P hp
  refine ⟨e, hpe, he, hall, hstop, ?_⟩
  rw [scan_eq (Nat.add_le_add_left hpe s), show s + e + 1 - (s + p) = e + 1 - p by omega]
  · intro k hk hke
    obtain ⟨k, rfl⟩ := Nat.exists_eq_add_of_le (show s ≤ k by omega)
    obtain ⟨-, hne, hP⟩ := h.of_any (show p ≤ k by omega) (hall k (by omega) (by omega))
    exact decide_eq_false fun hstop => hstop.elim hne (by rw [hP]; exact Bool.noConfusion)
  · obtain rfl | hstop := hstop
    · simp [h.at_end hp]
    · obtain ⟨-, -, hP⟩ := h.of_any hpe hstop
      simpa using Or.inr hP
  · omega

def isSep (seperators : CString) (c : Byte) : Bool := c ∈ seperators.1

/-- Where a call finds the string: unchanged from the saved pointer on, before which there is nothing or a separator. -/
structure Inv (seperators l : CString) (s p : ℕ) (st : State) : Prop where
  saveptr : st.saveptr = s + p
  le : p ≤ l.1.length
  first : p = 0 ∨ p = l.1.length ∨ l.1[p - 1]?.any (isSep seperators)
  rest : Rest st.mem s l p

lemma strspn_eq (seperators : CString) (str : ℕ) :
    strspn m seperators fuel str = scan (fun c => c = 0 ∨ isSep seperators c = false) m fuel str := by
  simp [strspn, isSep]

lemma strpbrk_eq (seperators : CString) (str : ℕ) : strpbrk m seperators fuel str =
    (scan (fun c => c = 0 ∨ (!isSep seperators c) = false) m fuel str).map
      fun r => (if m r.1 = 0 then none else some r.1, r.2) := by
  simp [strpbrk, isSep]

lemma strchrEnd_eq (str : ℕ) : strchrEnd m fuel str = scan (fun c => c = 0 ∨ true = false) m fuel str := by
  simp [strchrEnd]

lemma readBytes_run {q e : ℕ} (hqe : q ≤ e) (he : e ≤ l.1.length)
    (hrest : ∀ k, q ≤ k → k < e → m (s + k) = l.1.getD k 0) (hzero : m (s + e) = 0) :
    readBytes m (s + q) (e - q + 1) = (l.1.drop q).take (e - q) ++ [0] := by
  have hfront : readBytes m (s + q) (e - q) = (l.1.drop q).take (e - q) := by
    apply List.ext_getElem
    · rw [length_readBytes, List.length_take, List.length_drop]
      omega
    · intro i h1 h2
      rw [length_readBytes] at h1
      have hlt : q + i < l.1.length := by omega
      simp only [readBytes, List.getElem_map, List.getElem_range, List.getElem_take, List.getElem_drop]
      rw [add_assoc, hrest (q + i) (by omega) (by omega), List.getD_eq_getElem?_getD,
        List.getElem?_eq_getElem hlt, Option.getD_some]
  rw [Stream.readBytes_append, hfront, show s + q + (e - q) = s + e by omega]
  exact congrArg (fun c => _ ++ [c]) hzero

/-- What a call finds, and what it leaves. -/
structure Finds (seperators l : CString) (s p q : ℕ) (t : List Byte) (p' : ℕ) (st st' : State) : Prop where
  runs : runsFrom (isSep seperators) l.1 p = (q, t) :: runsFrom (isSep seperators) l.1 p'
  inv : Inv seperators l s p' st'
  le : p ≤ q
  behind : q + t.length < p' ∨ q + t.length = l.1.length ∧ p' = l.1.length
  terminated : readBytes st'.mem (s + q) (t.length + 1) = t ++ [0]
  before : ∀ k < p, st'.mem (s + k) = st.mem (s + k)

/-- What a call does: it finds nothing, or the next run, which it terminates. -/
lemma Inv.call {st : State} (h : Inv seperators l s p st) (hfuel : l.1.length < fuel) :
    ∃ r, strtokR seperators fuel none st = some r ∧ (∀ a ∈ r.2.2, s ≤ a ∧ a ≤ s + l.1.length) ∧
      ((runsFrom (isSep seperators) l.1 p = [] ∧ r.1 = none ∧ Inv seperators l s l.1.length r.2.1 ∧
          r.2.1.mem = st.mem) ∨
        ∃ q t p', r.1 = some (s + q) ∧ Finds seperators l s p q t p' st r.2.1) := by
  obtain ⟨q, hpq, hq, hseps, hstart, hspan⟩ := h.rest.scan h.le (isSep seperators) hfuel
  have hreads : ∀ a ∈ List.range' (s + p) (q + 1 - p) ++ [s + q], s ≤ a ∧ a ≤ s + l.1.length := by
    intro a ha
    simp only [List.mem_append, List.mem_range'_1, List.mem_singleton] at ha
    omega
  rw [strtokR, Option.getD_none, h.saveptr, strspn_eq, hspan, Option.bind_some]
  dsimp only
  obtain rfl | hlt := Nat.eq_or_lt_of_le hq
  · rw [if_pos (h.rest.at_end h.le)]
    refine ⟨_, rfl, hreads, Or.inl ⟨?_, rfl, ⟨rfl, le_rfl, Or.inr (Or.inl rfl), ?_⟩, rfl⟩⟩
    · rw [runsFrom_skip hpq le_rfl fun k hk hke => begins_of_sep (hseps k hk hke), runsFrom_end le_rfl]
    · exact fun k hk hke => h.rest k (by omega) hke
  have hrest : Rest st.mem s l q := fun k hk hke => h.rest k (by omega) hke
  obtain ⟨-, hne, -⟩ := hrest.of_any le_rfl (hstart.resolve_left hlt.ne)
  obtain ⟨e, hqe, he, hrun, hstop, hpbrk⟩ := hrest.scan hq (fun c => !isSep seperators c) hfuel
  simp only [Bool.not_not] at hstop
  have hqe' : q < e := by
    refine Nat.lt_of_le_of_ne hqe ?_
    rintro rfl
    obtain ⟨-, -, hsep⟩ := hrest.of_any le_rfl (hstop.resolve_left hlt.ne)
    obtain ⟨-, -, hnot⟩ := hrest.of_any le_rfl (hstart.resolve_left hlt.ne)
    rw [hsep] at hnot
    cases hnot
  have hfirst : p = 0 ∨ l.1[p - 1]?.any (isSep seperators) := by
    obtain h0 | hend | hsep := h.first
    · exact Or.inl h0
    · omega
    · exact Or.inr hsep
  have hruns := runsFrom_cons hpq hqe' he hfirst hseps hrun
  rw [runAt_eq_take hrun hqe hstop] at hruns
  have hlen : ((l.1.drop q).take (e - q)).length = e - q := by
    rw [List.length_take, List.length_drop]
    omega
  rw [if_neg hne, strpbrk_eq, hpbrk, Option.map_some, Option.bind_some]
  dsimp only
  obtain rfl | hlast := Nat.eq_or_lt_of_le he
  · obtain ⟨e, hqe1, he1, -, hstop1, hchr⟩ := hrest.scan hq (fun _ => true) hfuel
    obtain rfl : e = l.1.length := hstop1.resolve_right fun hany => by
      obtain ⟨-, -, hfalse⟩ := hrest.of_any hqe1 hany
      cases hfalse
    have hzero := h.rest.at_end h.le
    rw [if_pos hzero, Option.elim_none, strchrEnd_eq, hchr]
    refine ⟨_, rfl, fun a ha => ?_, Or.inr ⟨q, _, l.1.length, rfl, hruns,
      ⟨rfl, le_rfl, Or.inr (Or.inl rfl), ?_⟩, hpq, ?_, ?_, fun _ _ => rfl⟩⟩
    · simp only [List.mem_append, List.mem_range'_1, List.mem_singleton] at ha
      omega
    · exact fun k hk hke => h.rest k (by omega) hke
    · exact Or.inr ⟨by omega, rfl⟩
    · rw [hlen]
      exact readBytes_run hqe le_rfl (fun k hk hke => h.rest k (by omega) hke.le) hzero
  · have hsep := hstop.resolve_left hlast.ne
    obtain ⟨-, hnonzero, -⟩ := hrest.of_any hqe hsep
    have hnext : runsFrom (isSep seperators) l.1 e = runsFrom (isSep seperators) l.1 (e + 1) := by
      refine runsFrom_skip (Nat.le_succ e) hlast fun k hk hke => ?_
      obtain rfl : k = e := by omega
      exact begins_of_sep hsep
    rw [if_neg hnonzero, Option.elim_some]
    refine ⟨_, rfl, fun a ha => ?_, Or.inr ⟨q, _, e + 1, rfl, hnext ▸ hruns,
      ⟨add_assoc s e 1, hlast, Or.inr (Or.inr hsep), ?_⟩, hpq, Or.inl (by omega), ?_, ?_⟩⟩
    · simp only [List.mem_append, List.mem_range'_1, List.mem_singleton] at ha
      omega
    · intro k hk hke
      dsimp only
      rw [update_of_ne (by omega)]
      exact h.rest k (by omega) hke
    · rw [hlen]
      refine readBytes_run hqe he (fun k hk hke => ?_) (update_self ..)
      dsimp only
      rw [update_of_ne (by omega)]
      exact h.rest k (by omega) (by omega)
    · intro k hk
      exact update_of_ne (by omega) _ _

/-- The first call is one for the rest of the string too. -/
def State.resumed (st : State) (n s : ℕ) : State := ⟨st.mem, if n = 0 then s else st.saveptr⟩

lemma strtokR_resumed (n : ℕ) (st : State) : strtokR seperators fuel (if n = 0 then some s else none) st =
    strtokR seperators fuel none (st.resumed n s) := by
  rw [State.resumed]
  split_ifs <;> rfl

/-- After `n` calls. -/
structure Done (seperators l : CString) (s n p : ℕ) (r : Session) : Prop where
  results : r.results = (List.range n).map fun k => (runs (isSep seperators) l.1)[k]?.map fun t => s + t.1
  accesses : ∀ a ∈ r.accesses, s ≤ a ∧ a ≤ s + l.1.length
  inv : Inv seperators l s p (r.state.resumed n s)
  left : runsFrom (isSep seperators) l.1 p = (runs (isSep seperators) l.1).drop n
  terminated : ∀ t ∈ (runs (isSep seperators) l.1).take n,
    readBytes r.state.mem (s + t.1) (t.2.length + 1) = t.2 ++ [0] ∧
    (t.1 + t.2.length < p ∨ t.1 + t.2.length = l.1.length ∧ p = l.1.length)

lemma done_zero (st : State) (hl : Text st.mem s l.1) : Done seperators l s 0 0 ⟨[], st, []⟩ where
  results := rfl
  accesses := fun _ ha => absurd ha List.not_mem_nil
  inv := ⟨rfl, Nat.zero_le _, Or.inl rfl, fun k _ hk => hl k hk⟩
  left := rfl
  terminated := fun _ ht => absurd ht List.not_mem_nil

lemma Done.call {n : ℕ} {r : Session} (h : Done seperators l s n p r) (hfuel : l.1.length < fuel) :
    ∃ q p', strtokR seperators fuel (if n = 0 then some s else none) r.state = some q ∧
      Done seperators l s (n + 1) p' ⟨r.results ++ [q.1], q.2.1, r.accesses ++ q.2.2⟩ := by
  rw [strtokR_resumed]
  obtain ⟨q, hq, haccess, hcase⟩ := h.inv.call hfuel
  have haccesses : ∀ a ∈ r.accesses ++ q.2.2, s ≤ a ∧ a ≤ s + l.1.length := fun a ha =>
    (List.mem_append.mp ha).elim (h.accesses a) (haccess a)
  obtain ⟨hnone, hresult, hinv, hmem⟩ | ⟨start, t, p', hresult, hfinds⟩ := hcase
  · have hend : (runs (isSep seperators) l.1).length ≤ n := by
      rw [h.left, List.drop_eq_nil_iff] at hnone
      exact hnone
    refine ⟨q, l.1.length, hq, ?_, haccesses, hinv, ?_, ?_⟩
    · rw [List.range_succ, List.map_append, ← h.results, hresult]
      simp [hend]
    · rw [runsFrom_end le_rfl, List.drop_of_length_le (by omega)]
    · intro t ht
      rw [List.take_of_length_le (by omega)] at ht
      obtain ⟨hread, hbehind⟩ := h.terminated t (by rwa [List.take_of_length_le hend])
      dsimp only
      rw [hmem]
      refine ⟨hread, ?_⟩
      have hle := h.inv.le
      omega
  · have hdrop : (runs (isSep seperators) l.1).drop n = (start, t) :: runsFrom (isSep seperators) l.1 p' :=
      h.left.symm.trans hfinds.runs
    have hget : (runs (isSep seperators) l.1)[n]? = some (start, t) := by
      rw [← Nat.add_zero n, ← List.getElem?_drop, hdrop, List.getElem?_cons_zero]
    refine ⟨q, p', hq, ?_, haccesses, hfinds.inv, ?_, ?_⟩
    · rw [List.range_succ, List.map_append, ← h.results, hresult, List.map_singleton, hget]
      rfl
    · rw [← List.drop_drop, hdrop]
      rfl
    · intro t' ht'
      rw [List.take_add_one, hget] at ht'
      obtain ht' | ht' := List.mem_append.mp ht'
      · obtain ⟨hread, hbehind⟩ := h.terminated t' ht'
        have hle := hfinds.le
        have hmore := hfinds.behind
        have hbefore : t'.1 + t'.2.length < p := by
          refine hbehind.resolve_right fun hend => ?_
          have hnil := h.left
          rw [hdrop, hend.2, runsFrom_end le_rfl] at hnil
          cases hnil
        refine ⟨?_, Or.inl (by omega)⟩
        rw [← hread]
        refine readBytes_congr fun k hk => ?_
        rw [add_assoc]
        exact hfinds.before (t'.1 + k) (by omega)
      · obtain rfl := List.mem_singleton.mp ht'
        exact ⟨hfinds.terminated, hfinds.behind⟩

/-- The results are the addresses of the maximal runs in their order, and from then on null pointers; each run ends with
a zero byte, and the calls keep to the string. -/
theorem session_tokens (m : Memory) (s : ℕ) (l seperators : CString) (hl : Text m s l.1) (saveptr : ℕ) {fuel : ℕ}
    (hfuel : l.1.length < fuel) (n : ℕ) : ∃ r, session seperators fuel s ⟨m, saveptr⟩ n = some r ∧
      r.results = (List.range n).map (fun k => (runs (isSep seperators) l.1)[k]?.map fun t => s + t.1) ∧
      (∀ t ∈ (runs (isSep seperators) l.1).take n, readBytes r.state.mem (s + t.1) (t.2.length + 1) = t.2 ++ [0]) ∧
      ∀ a ∈ r.accesses, s ≤ a ∧ a ≤ s + l.1.length := by
  have hdone : ∃ r p, session seperators fuel s ⟨m, saveptr⟩ n = some r ∧ Done seperators l s n p r := by
    induction n with
    | zero => exact ⟨_, 0, rfl, done_zero ⟨m, saveptr⟩ hl⟩
    | succ n ih =>
      obtain ⟨r, p, hr, hdone⟩ := ih
      obtain ⟨q, p', hq, hdone'⟩ := hdone.call hfuel
      refine ⟨_, p', ?_, hdone'⟩
      rw [session, hr, Option.bind_some, hq, Option.map_some]
  obtain ⟨r, p, hr, hdone⟩ := hdone
  exact ⟨r, hr, hdone.results, fun t ht => (hdone.terminated t ht).1, hdone.accesses⟩

/-- `ls  -l` and spaces. -/
theorem session_tokens_command : ∃ r,
    session ⟨[0x20], by decide⟩ 7 0 ⟨fun k => [0x6c, 0x73, 0x20, 0x20, 0x2d, 0x6c].getD k 0, 0⟩ 3 = some r ∧
      r.results = [some 0, some 4, none] := by
  obtain ⟨r, hr, hresults, -⟩ := session_tokens (fun k => [0x6c, 0x73, 0x20, 0x20, 0x2d, 0x6c].getD k 0) 0
    ⟨[0x6c, 0x73, 0x20, 0x20, 0x2d, 0x6c], by decide⟩ ⟨[0x20], by decide⟩ (fun k _ => by rw [Nat.zero_add]) 0
    (show 6 < 7 by decide) 3
  refine ⟨r, hr, hresults.trans ?_⟩
  decide

end PiggyOs.Strtok
