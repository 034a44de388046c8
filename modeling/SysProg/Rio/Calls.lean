import SysProg.Rio.Program

/-!
# The calls of the Rio package on the byte stream

However `read` cuts the stream into pieces and however often it is
interrupted, a call takes the bytes that follow those taken before it.
-/

namespace SysProg.Rio

open Logic

/-- The bytes of the internal buffer that no call has taken yet. -/
def Reader.unread (r : Reader) : List UInt8 := (r.rioBuf.drop r.rioBufptr).take r.rioCnt.toNat

/-- The bytes that no call has taken yet. -/
def Reader.pending (r : Reader) : List UInt8 := r.unread ++ r.rioFd.rest

/-- `rio_cnt` counts bytes of the internal buffer. -/
def Reader.Sound (r : Reader) : Prop := r.rioBufptr + r.rioCnt.toNat ≤ r.rioBuf.length

/-- How often the device still fails. -/
def Reader.failures (r : Reader) : Nat := Logic.failures r.rioFd.plan

/-- Between two states nothing was taken and nothing failed. -/
structure Reader.Still (r r' : Reader) : Prop where
  sound : r'.Sound
  pending : r'.pending = r.pending
  failures : r'.failures = r.failures

/-- What `rio_read` for at most `n` bytes can do. -/
inductive Took (n : Nat) (r : Reader) : Result → Reader → Prop where
  | data {k : Nat} {r' : Reader} (positive : 0 < k) (bound : k ≤ n) (inside : k ≤ r.pending.length)
      (sound : r'.Sound) (left : r'.pending = r.pending.drop k)
      (steady : r'.failures = r.failures) : Took n r (k, r.pending.take k) r'
  | ended {r' : Reader} (none_left : r.pending = []) (still : r.Still r') : Took n r (0, []) r'
  | failed {r' : Reader} (sound : r'.Sound) (left : r'.pending = r.pending)
      (fewer : r'.failures + 1 = r.failures) : Took n r (-1, []) r'

section Read

variable {r r' : Reader} {n : Nat}

theorem Reader.unread_eq_nil (empty : ¬ 0 < r.rioCnt) : r.unread = [] := by
  have none_left : r.rioCnt.toNat = 0 := by omega
  rw [unread, none_left, List.take_zero]

theorem Reader.pending_eq_rest (empty : ¬ 0 < r.rioCnt) : r.pending = r.rioFd.rest := by
  rw [pending, unread_eq_nil empty, List.nil_append]

/-- An empty buffer may be discarded. -/
theorem Reader.still_empty (fd : Source UInt8) {cnt : Int} (empty : ¬ 0 < r.rioCnt)
    (none_left : ¬ 0 < cnt) (sound : r.Sound) (rest : fd.rest = r.rioFd.rest)
    (steady : Logic.failures fd.plan = r.failures) :
    r.Still { r with rioFd := fd, rioCnt := cnt } where
  sound := by
    have zero : cnt.toNat = 0 := by omega
    unfold Sound at *
    simp only [zero]
    omega
  pending := by
    rw [pending_eq_rest empty, pending_eq_rest (by simpa using none_left)]
    exact rest
  failures := steady

theorem Reader.Still.trans {r'' : Reader} (first : r.Still r') (second : r'.Still r'') :
    r.Still r'' :=
  ⟨second.sound, second.pending.trans first.pending, second.failures.trans first.failures⟩

/-- A piece that has just been read fills the buffer. -/
theorem Reader.still_filled {c : UInt8} {piece rest : List UInt8} {plan : List Answer}
    (empty : ¬ 0 < r.rioCnt) (cut : (c :: piece) ++ rest = r.rioFd.rest)
    (steady : Logic.failures plan = r.failures) :
    r.Still ⟨⟨rest, plan⟩, (c :: piece).length, 0, c :: piece⟩ where
  sound := by simp [Sound]
  pending := by
    rw [pending_eq_rest empty, ← cut]
    simp [pending, unread]
  failures := steady

/-- How the loop of `rio_read` can end. -/
inductive Filled (r : Reader) : Option Int → Reader → Prop where
  | ready {r' : Reader} (some_left : 0 < r'.rioCnt) (still : r.Still r') : Filled r none r'
  | ended {r' : Reader} (none_left : r.pending = []) (still : r.Still r') : Filled r (some 0) r'
  | failed {r' : Reader} (sound : r'.Sound) (left : r'.pending = r.pending)
      (fewer : r'.failures + 1 = r.failures) : Filled r (some (-1)) r'

theorem Filled.of_still {ended : Option Int} {r'' : Reader} (still : r.Still r')
    (filled : Filled r' ended r'') : Filled r ended r'' := by
  cases filled with
  | ready some_left still' => exact .ready some_left (still.trans still')
  | ended none_left still' => exact .ended (still.pending ▸ none_left) (still.trans still')
  | failed sound left fewer =>
      exact .failed sound (left.trans still.pending) (fewer.trans still.failures)

theorem wp_fill_ready (fuel : Nat) (some_left : 0 < r.rioCnt) (sound : r.Sound) :
    wp (fill (fuel + 1)) (Filled r) r := by
  refine ⟨(none, r), ?_, .ready some_left ⟨sound, rfl, rfl⟩⟩
  simp only [fill, if_pos some_left]

/-- The loop of `rio_read` ends: an interruption uses up an answer, and a piece
is its last round but one. -/
theorem wp_fill {fuel : Nat} (sound : r.Sound) (enough : r.rioFd.plan.length + 2 ≤ fuel) :
    wp (fill fuel) (Filled r) r := by
  induction fuel generalizing r with
  | zero => omega
  | succ fuel ih =>
      by_cases some_left : 0 < r.rioCnt
      · exact wp_fill_ready fuel some_left sound
      · have rest := Reader.pending_eq_rest some_left
        have reads := Source.reads_read (n := RIO_BUFSIZE) (by decide) r.rioFd
        unfold wp
        simp only [fill, if_neg some_left]
        generalize r.rioFd.read RIO_BUFSIZE = answer at reads
        obtain ⟨reading, fd⟩ := answer
        cases reads with
        | @got k plan positive bound steady shorter =>
            cases piece : r.rioFd.rest.take k with
            | nil =>
                have exhausted : r.rioFd.rest = [] := by
                  rcases List.take_eq_nil_iff.mp piece with none_asked | none_left
                  · omega
                  · exact none_left
                refine ⟨_, rfl, .ended (rest.trans exhausted) ?_⟩
                refine Reader.still_empty _ some_left (by decide) sound ?_ steady
                rw [exhausted, List.drop_nil]
            | cons c piece' =>
                have cut : (c :: piece') ++ r.rioFd.rest.drop k = r.rioFd.rest := by
                  rw [← piece, List.take_append_drop]
                have still := Reader.still_filled some_left cut steady
                have positive' : 0 < fuel := by omega
                obtain ⟨fuel, rfl⟩ := Nat.exists_eq_add_one.mpr positive'
                obtain ⟨result, run, filled⟩ := wp_fill_ready fuel
                  (r := ⟨⟨_, plan⟩, (c :: piece').length, 0, c :: piece'⟩) (by simp)
                  still.sound
                exact ⟨result, run, filled.of_still still⟩
        | @interrupted plan steady shorter =>
            have still := Reader.still_empty ⟨r.rioFd.rest, plan⟩ some_left
              (by decide : ¬ (0 : Int) < -1) sound rfl steady
            obtain ⟨result, run, filled⟩ := ih still.sound (by simp; omega)
            exact ⟨result, run, filled.of_still still⟩
        | @failed plan fewer shorter =>
            refine ⟨_, rfl, .failed ?_ ?_ fewer⟩
            · unfold Reader.Sound at *
              simp only [Int.reduceNeg]
              omega
            · rw [rest, Reader.pending_eq_rest (by simp)]

/-- The copy takes the first bytes of the buffer. -/
theorem wp_copyOut (positive : 0 < n) (some_left : 0 < r.rioCnt) (sound : r.Sound) :
    wp (copyOut n) (Took n r) r := by
  have size : (if r.rioCnt < n then r.rioCnt.toNat else n) = min n r.rioCnt.toNat := by
    split <;> omega
  unfold Reader.Sound at sound
  have unread : r.unread.length = r.rioCnt.toNat := by
    rw [Reader.unread, List.length_take, List.length_drop]
    omega
  have first : (r.rioBuf.drop r.rioBufptr).take (min n r.rioCnt.toNat) =
      r.pending.take (min n r.rioCnt.toNat) := by
    rw [Reader.pending, List.take_append_of_le_length (by omega), Reader.unread, List.take_take]
    congr 1
    omega
  unfold wp copyOut
  simp only [size]
  rw [if_pos (by omega), first]
  refine ⟨_, rfl, .data (by omega) (Nat.min_le_left _ _) ?_ ?_ ?_ rfl⟩
  · rw [Reader.pending, List.length_append]
    omega
  · unfold Reader.Sound
    simp only
    omega
  · have later : (r.rioCnt - ↑(min n r.rioCnt.toNat)).toNat =
        r.rioCnt.toNat - min n r.rioCnt.toNat := by omega
    have dropped : r.pending.drop (min n r.rioCnt.toNat) =
        r.unread.drop (min n r.rioCnt.toNat) ++ r.rioFd.rest :=
      List.drop_append_of_le_length (by omega)
    rw [dropped]
    simp only [Reader.pending, Reader.unread, later]
    rw [List.drop_take, List.drop_drop]

/-- `rio_read` ends, and takes at least one byte unless there is none or the
device fails. -/
theorem wp_rioRead (positive : 0 < n) (sound : r.Sound) : wp (rioRead n) (Took n r) r := by
  have run : rioRead n r = (fill (r.rioFd.plan.length + 2) >>= behindFill n) r := rfl
  rw [wp_congr_run run, wp_bind]
  refine wp_mono (wp_fill sound le_rfl) ?_
  intro ended r' filled
  cases filled with
  | ready some_left still =>
      refine wp_mono (wp_copyOut positive some_left still.sound) ?_
      intro result r'' took
      cases took with
      | data positive bound inside sound left steady =>
          rw [still.pending] at inside left ⊢
          exact .data positive bound inside sound left (steady.trans still.failures)
      | ended none_left still' => exact .ended (still.pending ▸ none_left) (still.trans still')
      | failed sound left fewer =>
          exact .failed sound (left.trans still.pending) (fewer.trans still.failures)
  | ended none_left still =>
      rw [behindFill, wp_pure]
      exact .ended none_left still
  | failed sound left fewer =>
      rw [behindFill, wp_pure]
      exact .failed sound left fewer

end Read

/-! ## The calls -/

/-- A buffered call. -/
inductive Call where
  | readnb (n : Nat)
  | readlineb (maxlen : Nat)

namespace Call

def exec : Call → RM Result
  | readnb n => rioReadnb n
  | readlineb maxlen => rioReadlineb maxlen

/-- The most bytes that a call takes. -/
def size : Call → Nat
  | readnb n => n
  | readlineb maxlen => maxlen - 1

/-- A call on the bytes of the stream: its result, and the bytes it leaves. -/
def ideal (bytes : List UInt8) : Call → Result × List UInt8
  | readnb n => (((bytes.take n).length, bytes.take n), bytes.drop n)
  | readlineb maxlen =>
      let read := Proxy.rioReadlineb (maxlen - 1) bytes
      (if read.1 = [] ∧ 0 < maxlen - 1 then (0, []) else (read.1.length, read.1 ++ [0]), read.2)

/-- The bytes of the stream among those that a call has stored. -/
def moved (call : Call) (result : Result) : List UInt8 :=
  match call with
  | readnb _ => result.2
  | readlineb _ => if result.1 = -1 then result.2 else result.2.take result.1.toNat

/-- A call answers as on the stream, or the device fails after some bytes. -/
inductive Answers (call : Call) (r : Reader) : Result → Reader → Prop where
  | done {r' : Reader} (sound : r'.Sound) (left : r'.pending = (call.ideal r.pending).2)
      (steady : r'.failures = r.failures) : Answers call r (call.ideal r.pending).1 r'
  | failed {k : Nat} {r' : Reader} (few : k < call.size) (inside : k ≤ r.pending.length)
      (sound : r'.Sound) (left : r'.pending = r.pending.drop k)
      (fewer : r'.failures + 1 = r.failures) : Answers call r (-1, r.pending.take k) r'

end Call

section Calls

variable {r : Reader}

/-- The loop of `rio_readnb` after `taken` bytes. -/
theorem wp_readnbFrom {stream : List UInt8} {fuel taken nleft : Nat} (enough : nleft < fuel)
    (inside : taken ≤ stream.length) (sound : r.Sound) (pending : r.pending = stream.drop taken) :
    wp (readnbFrom (taken + nleft) fuel nleft (stream.take taken)) (fun result r' =>
      r'.Sound ∧
        ((result = (((stream.take (taken + nleft)).length, stream.take (taken + nleft)) : Result) ∧
            r'.pending = stream.drop (taken + nleft) ∧ r'.failures = r.failures) ∨
          ∃ k, k < taken + nleft ∧ k ≤ stream.length ∧ result = (-1, stream.take k) ∧
            r'.pending = stream.drop k ∧ r'.failures + 1 = r.failures)) r := by
  induction fuel generalizing taken nleft r with
  | zero => omega
  | succ fuel ih =>
      have far : taken + nleft - nleft = taken := Nat.add_sub_cancel _ _
      have length : (stream.take taken).length = taken := List.length_take_of_le inside
      rw [readnbFrom, wp_ite]
      by_cases more : 0 < nleft
      · rw [if_pos more, wp_bind]
        refine wp_mono (wp_rioRead more sound) ?_
        intro result r' took
        cases took with
        | @data k r' positive bound within sound left steady =>
            have count : ¬ (k : Int) < 0 := by omega
            have some_read : ¬ (k : Int) = 0 := by omega
            have stored : stream.take taken ++ r.pending.take k = stream.take (taken + k) := by
              rw [pending, List.take_add]
            have total : taken + nleft = taken + k + (nleft - k) := by omega
            rw [pending, List.length_drop] at within
            rw [wp_ite, if_neg count, wp_ite, if_neg some_read, stored, Int.toNat_natCast, total]
            have left' : r'.pending = stream.drop (taken + k) := by
              rw [left, pending, List.drop_drop]
            have later := ih (by omega : nleft - k < fuel) (by omega) sound left'
            rw [steady] at later
            exact later
        | ended none_left still =>
            have exhausted : stream.length ≤ taken := by
              rw [pending] at none_left
              exact List.drop_eq_nil_iff.mp none_left
            have all : stream.take (taken + nleft) = stream.take taken := by
              rw [List.take_of_length_le exhausted, List.take_of_length_le (by omega)]
            rw [wp_ite, if_neg (by decide), wp_ite, if_pos rfl, wp_pure, far]
            refine ⟨still.sound, .inl ⟨?_, ?_, still.failures⟩⟩
            · rw [all, length]
            · rw [still.pending, none_left, List.drop_eq_nil_of_le (by omega)]
        | failed sound left fewer =>
            rw [wp_ite, if_pos (by decide), wp_pure]
            exact ⟨sound, .inr ⟨taken, by omega, inside, rfl, left.trans pending, fewer⟩⟩
      · obtain rfl : nleft = 0 := by omega
        rw [if_neg more, wp_pure]
        refine ⟨sound, .inl ⟨?_, pending, rfl⟩⟩
        rw [Nat.add_zero, Nat.sub_zero, length]

theorem wp_rioReadnb (n : Nat) (sound : r.Sound) :
    wp (rioReadnb n) ((Call.readnb n).Answers r) r := by
  have whole := wp_readnbFrom (Nat.lt_succ_self n) (Nat.zero_le _) sound
    (List.drop_zero (l := r.pending)).symm
  rw [Nat.zero_add, List.take_zero] at whole
  refine wp_mono whole ?_
  rintro result r' ⟨sound', ⟨rfl, left, steady⟩ | ⟨k, few, inside, rfl, left, fewer⟩⟩
  · exact .done sound' left steady
  · exact .failed few inside sound' left fewer

/-- What the loop of `rio_readlineb` with the counter `n` can do in some rounds. -/
inductive ReadsLine (rounds n : Nat) (usrbuf : List UInt8) (r : Reader) : Result → Reader → Prop where
  | line {line : List UInt8} {r' : Reader}
      (read : Proxy.rioReadlineb rounds r.pending = (line, r'.pending))
      (some_line : line ≠ [] ∨ rounds = 0 ∨ n ≠ 1) (sound : r'.Sound)
      (steady : r'.failures = r.failures) :
      ReadsLine rounds n usrbuf r ((n : Int) - 1 + line.length, usrbuf ++ line ++ [0]) r'
  | ended {r' : Reader} (read : Proxy.rioReadlineb rounds r.pending = ([], r'.pending))
      (rounds_left : 0 < rounds) (first : n = 1) (sound : r'.Sound)
      (steady : r'.failures = r.failures) : ReadsLine rounds n usrbuf r (0, usrbuf) r'
  | failed {k : Nat} {r' : Reader} (few : k < rounds) (inside : k ≤ r.pending.length)
      (sound : r'.Sound) (left : r'.pending = r.pending.drop k)
      (fewer : r'.failures + 1 = r.failures) :
      ReadsLine rounds n usrbuf r (-1, usrbuf ++ r.pending.take k) r'

/-- One more character before what the loop reads. -/
theorem ReadsLine.cons {rounds n : Nat} {usrbuf : List UInt8} {c : UInt8} {r' r'' : Reader}
    {result : Result} (pending : r.pending = c :: r'.pending) (other : c ≠ Proxy.newline)
    (counted : 1 ≤ n) (steady : r'.failures = r.failures)
    (later : ReadsLine rounds (n + 1) (usrbuf ++ [c]) r' result r'') :
    ReadsLine (rounds + 1) n usrbuf r result r'' := by
  cases later with
  | @line line r'' read some_line sound steady' =>
      have whole : Proxy.rioReadlineb (rounds + 1) r.pending = (c :: line, r''.pending) := by
        rw [pending, Proxy.rioReadlineb, if_neg other, read]
      have count : ((n + 1 : Nat) : Int) - 1 + line.length =
          (n : Int) - 1 + (c :: line).length := by
        rw [List.length_cons]
        omega
      rw [count, List.append_assoc usrbuf]
      exact .line whole (.inl (List.cons_ne_nil _ _)) sound (steady'.trans steady)
  | ended read rounds_left first => omega
  | @failed k r'' few inside sound left fewer =>
      have stored : usrbuf ++ [c] ++ r'.pending.take k = usrbuf ++ r.pending.take (k + 1) := by
        rw [pending, List.take_succ_cons, List.append_assoc, List.singleton_append]
      rw [stored]
      refine .failed (Nat.succ_lt_succ few) ?_ sound ?_ (fewer.trans steady)
      · rw [pending]
        exact Nat.succ_le_succ inside
      · rw [left, pending, List.drop_succ_cons]

/-- The loop of `rio_readlineb` with the counter `n`. -/
theorem wp_readlinebFrom {rounds n : Nat} {usrbuf : List UInt8} (counted : 1 ≤ n)
    (sound : r.Sound) :
    wp (readlinebFrom rounds n usrbuf) (ReadsLine rounds n usrbuf r) r := by
  induction rounds generalizing n usrbuf r with
  | zero =>
      have empty : ReadsLine 0 n usrbuf r ((n : Int) - 1 + ([] : List UInt8).length,
          usrbuf ++ [] ++ [0]) r := .line rfl (.inr (.inl rfl)) sound rfl
      rw [readlinebFrom, wp_pure]
      simpa using empty
  | succ rounds ih =>
      rw [readlinebFrom, wp_bind]
      refine wp_mono (wp_rioRead Nat.one_pos sound) ?_
      intro result r' took
      cases took with
      | @data k r' positive bound inside sound left steady =>
          obtain rfl : k = 1 := Nat.le_antisymm bound positive
          obtain ⟨c, rest, pending⟩ := List.exists_cons_of_length_pos inside
          have one : r.pending.take 1 = [c] := by rw [pending, List.take_succ_cons, List.take_zero]
          have behind : r'.pending = rest := by rw [left, pending, List.drop_succ_cons, List.drop_zero]
          have got_one : ((1 : Nat) : Int) = 1 := rfl
          rw [one, wp_ite, if_pos got_one, wp_ite]
          by_cases stop : c = Proxy.newline
          · subst stop
            have read : Proxy.rioReadlineb (rounds + 1) r.pending =
                ([Proxy.newline], r'.pending) := by
              rw [pending, Proxy.rioReadlineb, if_pos rfl, behind]
            have stops : ReadsLine (rounds + 1) n usrbuf r _ r' :=
              .line read (.inl (List.cons_ne_nil _ _)) sound steady
            have result_eq : (n : Int) - 1 + ([Proxy.newline] : List UInt8).length = n := by simp
            rw [result_eq] at stops
            rw [if_pos rfl, wp_pure]
            exact stops
          · rw [if_neg (fun same => stop (List.cons.inj same).1)]
            refine wp_mono (ih (Nat.le_succ_of_le counted) sound) ?_
            intro result r'' later
            exact later.cons (by rw [pending, behind]) stop counted steady
      | ended none_left still =>
          have read : Proxy.rioReadlineb (rounds + 1) r.pending = ([], r'.pending) := by
            rw [still.pending, none_left, Proxy.rioReadlineb]
          rw [wp_ite, if_neg (by decide), wp_ite, if_pos rfl, wp_ite, wp_pure, wp_pure]
          by_cases first : n = 1
          · rw [if_pos first]
            exact .ended read (Nat.succ_pos _) first still.sound still.failures
          · have stops : ReadsLine (rounds + 1) n usrbuf r _ r' :=
              .line read (.inr (.inr first)) still.sound still.failures
            rw [if_neg first]
            simpa using stops
      | failed sound left fewer =>
          have fails : ReadsLine (rounds + 1) n usrbuf r _ r' :=
            .failed (Nat.succ_pos rounds) (Nat.zero_le _) sound left fewer
          rw [wp_ite, if_neg (by decide), wp_ite, if_neg (by decide), wp_pure]
          simpa using fails

theorem wp_rioReadlineb (maxlen : Nat) (sound : r.Sound) :
    wp (rioReadlineb maxlen) ((Call.readlineb maxlen).Answers r) r := by
  refine wp_mono (wp_readlinebFrom le_rfl sound) ?_
  intro result r' reads
  cases reads with
  | @line line r' read some_line sound steady =>
      have none_ended : ¬ (line = [] ∧ 0 < maxlen - 1) := by
        rintro ⟨empty, positive⟩
        rcases some_line with nonempty | zero | other
        · exact nonempty empty
        · omega
        · exact other rfl
      have answer : ((Call.readlineb maxlen).ideal r.pending) =
          ((((1 : Nat) : Int) - 1 + line.length, [] ++ line ++ [0]), r'.pending) := by
        simp only [Call.ideal, read, if_neg none_ended]
        simp
      have done : (Call.readlineb maxlen).Answers r _ r' :=
        .done sound (congrArg Prod.snd answer).symm steady
      rwa [congrArg Prod.fst answer] at done
  | ended read rounds_left first sound steady =>
      have answer : ((Call.readlineb maxlen).ideal r.pending) = ((0, []), r'.pending) := by
        simp only [Call.ideal, read, rounds_left, and_self, if_true]
      have done : (Call.readlineb maxlen).Answers r _ r' :=
        .done sound (congrArg Prod.snd answer).symm steady
      rwa [congrArg Prod.fst answer] at done
  | failed few inside sound left fewer => exact .failed few inside sound left fewer

/-- Every call ends. -/
theorem Call.wp_exec (call : Call) (sound : r.Sound) : wp call.exec (call.Answers r) r := by
  cases call with
  | readnb n => exact wp_rioReadnb n sound
  | readlineb maxlen => exact wp_rioReadlineb maxlen sound

end Calls

end SysProg.Rio
