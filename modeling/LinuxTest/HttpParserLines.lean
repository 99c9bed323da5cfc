/-
The loop of `onMessage` takes whole lines and ends.  Every turn that goes round
again, other than that on the content, drops one line with its line break; the
content takes all that is left.
-/
import LinuxTest.HttpParserStream
import LinuxTest.TextLines

namespace LinuxTest

namespace Sone

theorem cr_ne_lf : cr ≠ lf := by
  decide

/-- The loop comes from one connection state to the other, taking the lines one
after another and no content. -/
inductive TakesLines : HttpConn → List Bytes → HttpConn → Prop where
  | none (c : HttpConn) : TakesLines c [] c
  | line {c next last : HttpConn} {text : Bytes} {lines : List Bytes}
      (hstate : c.state ≠ .checkContent) (hturn : turn c = (next, none))
      (hqueue : c.queue = text ++ cr :: lf :: next.queue)
      (htext : cr ∉ text) (hrest : TakesLines next lines last) :
      TakesLines c (text :: lines) last

/-- What is left is the input behind the last line taken. -/
theorem TakesLines.queue_eq {c last : HttpConn} {lines : List Bytes}
    (htakes : TakesLines c lines last) :
    c.queue = lines.flatMap (fun line => line ++ [cr, lf]) ++ last.queue ∧
      ∀ line ∈ lines, cr ∉ line := by
  induction htakes with
  | none c => simp
  | line _ _ hqueue htext _ ih =>
      obtain ⟨heq, hlines⟩ := ih
      refine ⟨by rw [hqueue, heq]; simp, ?_⟩
      exact List.forall_mem_cons.mpr ⟨htext, hlines⟩

/-- The one call of `moveLow` in a parse function that accepts a line. -/
theorem turn_moveLow {c next : HttpConn} (hstate : c.state ≠ .checkContent)
    (hturn : turn c = (next, none)) :
    ∃ line, c.queue = line ++ cr :: lf :: next.queue ∧ cr ∉ line ∧
      Queue.moveLow c.queue (Queue.findChar c.queue cr 0 + 2) =
        (next.queue, true) := by
  obtain ⟨line, hqueue, hline, _⟩ := turn_takes hstate hturn
  refine ⟨line, hqueue, hline, ?_⟩
  have hend : Queue.findChar c.queue cr 0 = line.length := by
    rw [hqueue, Queue.findChar_line hline]
  rw [hend]
  exact Queue.moveLow_text (line ++ [cr, lf]) next.queue
    (by simp [hqueue]) (by simp)

/-- A turn on the content that goes round again has taken everything. -/
theorem turn_content_takes {c next : HttpConn}
    (hstate : c.state = .checkContent) (hturn : turn c = (next, none)) :
    next.queue = [] ∧ next.state = .checkRequestLine := by
  rw [turn_eq_of_content hstate] at hturn
  have hacc := Verdict.loopEnd_eq_none (congrArg Prod.snd hturn)
  obtain rfl := congrArg Prod.fst hturn
  simp [hacc]

/-- On an empty buffer the loop stops at once. -/
theorem parseLoop_empty {c : HttpConn} (hqueue : c.queue = [])
    (hstate : c.state ≠ .checkContent) (fuel : Nat) (flag : Bool) :
    parseLoop (fuel + 1) c flag = (c, flag, .more) := by
  have hmore : parseLine c.queue = .ok .lineMore := by
    rw [hqueue]
    exact parseLine_absent List.not_mem_nil
  rw [parseLoop, turn_eq_of_more hstate hmore]

/-- The number of turns: one for each line break, one for the content and one
that stops. -/
theorem parseLoop_ends {fuel : Nat} {c : HttpConn} (flag : Bool)
    (hfuel : 2 ≤ fuel)
    (hlines : c.state ≠ .checkContent →
      countPairs cr lf c.queue + 2 ≤ fuel) :
    (parseLoop fuel c flag).2.2 ≠ .outOfFuel := by
  induction fuel generalizing c flag with
  | zero => omega
  | succ fuel ih =>
      rcases hturn : turn c with ⟨next, _ | stop⟩
      · rw [parseLoop, hturn]
        simp only []
        by_cases hstate : c.state = .checkContent
        · obtain ⟨hqueue, hnext⟩ := turn_content_takes hstate hturn
          obtain ⟨more, rfl⟩ := Nat.exists_eq_add_of_le' (by omega : 1 ≤ fuel)
          rw [parseLoop_empty hqueue (by simp [hnext])]
          simp
        · obtain ⟨line, hqueue, hline, _⟩ := turn_takes hstate hturn
          have hpairs := countPairs_line cr_ne_lf hline next.queue
          rw [← hqueue] at hpairs
          have hmany := hlines hstate
          exact ih _ (by omega) fun _ => by omega
      · have hne := turn_ne_outOfFuel c
        rw [hturn] at hne
        rw [parseLoop, hturn]
        simpa using hne

theorem parseLoop_flag (fuel : Nat) (c : HttpConn) :
    (parseLoop fuel c true).2.1 = true := by
  induction fuel generalizing c with
  | zero => rfl
  | succ fuel ih =>
      rcases hturn : turn c with ⟨next, _ | stop⟩
      · simp only [parseLoop, hturn, Bool.true_or]
        exact ih next
      · simp only [parseLoop, hturn]

/-- A turn that waits for more bytes has looked for a line and seen no
carriage return with a byte behind it. -/
theorem turn_more {c next : HttpConn} (hturn : turn c = (next, some .more)) :
    next = c ∧ cr ∉ c.queue.dropLast := by
  have hstate : c.state ≠ .checkContent := by
    intro hstate
    rw [turn_eq_of_content hstate] at hturn
    exact Verdict.loopEnd_ne_more _ (congrArg Prod.snd hturn)
  obtain ⟨hnext, hmore⟩ := turn_waits hstate hturn
  obtain ⟨view, hparse, hview⟩ := parseLine_view c.queue
  rw [hparse] at hmore
  cases hmore
  cases hview with
  | more hcr => exact ⟨hnext, hcr⟩

/-- The loop that waits for more without having met the content took lines
only, and waits at what `parseLine` could not decide. -/
theorem parseLoop_takes {fuel : Nat} {c last : HttpConn}
    (hloop : parseLoop fuel c false = (last, false, .more)) :
    ∃ lines, TakesLines c lines last ∧ cr ∉ last.queue.dropLast := by
  induction fuel generalizing c with
  | zero => cases hloop
  | succ fuel ih =>
      rcases hturn : turn c with ⟨next, _ | stop⟩
      · simp only [parseLoop, hturn, Bool.false_or] at hloop
        by_cases hstate : c.state = .checkContent
        · have hflag := parseLoop_flag fuel next
          rw [decide_eq_true hstate] at hloop
          rw [hloop] at hflag
          cases hflag
        · rw [decide_eq_false hstate] at hloop
          obtain ⟨lines, htakes, hlast⟩ := ih hloop
          obtain ⟨line, hqueue, hline, _⟩ := turn_takes hstate hturn
          exact ⟨line :: lines, .line hstate hturn hqueue hline htakes, hlast⟩
      · simp only [parseLoop, hturn, Prod.mk.injEq, true_and] at hloop
        obtain ⟨rfl, rfl⟩ := hloop
        obtain ⟨rfl, hcr⟩ := turn_more hturn
        exact ⟨[], .none next, hcr⟩

/-- One turn that goes round again. -/
def GoesRound (c next : HttpConn) : Prop :=
  turn c = (next, none)

/-- The loop of `onMessage` on any buffer, parse state and request.  It is over
after one turn for each line break and two more.  Every line that a parse
function accepts on the way is dropped whole by its `moveLow`.  Where the loop
waits for more and has met no content, the buffer holds what stood behind the
last line taken, without a carriage return except as its last byte. -/
theorem parseLoop_ends_on_lines (c : HttpConn) :
    (parseLoop (countPairs cr lf c.queue + 2) c false).2.2 ≠ .outOfFuel ∧
    (∀ mid next, Relation.ReflTransGen GoesRound c mid →
      mid.state ≠ .checkContent → turn mid = (next, none) →
      ∃ line, mid.queue = line ++ cr :: lf :: next.queue ∧ cr ∉ line ∧
        Queue.moveLow mid.queue (Queue.findChar mid.queue cr 0 + 2) =
          (next.queue, true)) ∧
    (∀ fuel last, parseLoop fuel c false = (last, false, .more) →
      ∃ lines, TakesLines c lines last ∧
        c.queue = lines.flatMap (fun line => line ++ [cr, lf]) ++
          last.queue ∧
        (∀ line ∈ lines, cr ∉ line) ∧ cr ∉ last.queue.dropLast) := by
  refine ⟨?_, ?_, ?_⟩
  · exact parseLoop_ends false (by omega) fun _ => le_refl _
  · intro mid next _ hstate hturn
    exact turn_moveLow hstate hturn
  · intro fuel last hloop
    obtain ⟨lines, htakes, hcr⟩ := parseLoop_takes hloop
    obtain ⟨hqueue, hlines⟩ := htakes.queue_eq
    exact ⟨lines, htakes, hqueue, hlines, hcr⟩

/-- A request line and the first bytes of a header line. -/
theorem parseLoop_ends_on_lines_cut :
    (parseLoop 3 ⟨lit "GET /a HTTP/1.1\r\nHo", .checkRequestLine, .init⟩
      false).2 = (false, .more) ∧
    ∃ lines : List Bytes, lit "GET /a HTTP/1.1\r\nHo" =
      lines.flatMap (fun line => line ++ [cr, lf]) ++
        (parseLoop 3 ⟨lit "GET /a HTTP/1.1\r\nHo", .checkRequestLine, .init⟩
          false).1.queue := by
  have hloop : (parseLoop 3 ⟨lit "GET /a HTTP/1.1\r\nHo",
      .checkRequestLine, .init⟩ false).2 = (false, .more) := by
    decide +kernel
  have htakes := (parseLoop_ends_on_lines
    ⟨lit "GET /a HTTP/1.1\r\nHo", .checkRequestLine, .init⟩).2.2 3
  generalize parseLoop 3 ⟨lit "GET /a HTTP/1.1\r\nHo", .checkRequestLine,
    .init⟩ false = result at hloop htakes ⊢
  obtain ⟨last, flag, stop⟩ := result
  obtain ⟨rfl, rfl⟩ := Prod.mk.inj hloop
  obtain ⟨lines, _, hqueue, _⟩ := htakes last rfl
  exact ⟨rfl, lines, hqueue⟩

end Sone

end LinuxTest
