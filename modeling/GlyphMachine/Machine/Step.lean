import GlyphMachine.Code
import GlyphMachine.Machine

/-!
# Single steps

`Machine.step` performs a straight-line operation, `Machine.transfer` the exit of a block.
-/

namespace GlyphMachine.Machine

/-- Performs an operation. -/
def step (m : Machine) : Op → Machine
  | .push w => { m with data := m.data.push w }
  | .pushTwice w => { m with data := (m.data.push w).push w }
  | .binary f => { m with data := m.data.binary f.apply }
  | .binaryWith f w => { m with data := m.data.unary fun v => f.apply v w }
  | .unary f => { m with data := m.data.unary f.apply }
  | .dup => { m with data := m.data.dup }
  | .drop => { m with data := m.data.drop }
  | .exchange => { m with data := m.data.exchange }
  | .rotateUp => { m with data := m.data.rotateUp }
  | .rotateDown => { m with data := m.data.rotateDown }
  | .pick =>
    let (n, data) := m.data.pop
    { m with data := data.push (data.fromTop n.offset) }
  | .pickAt n => { m with data := m.data.push (m.data.fromTop n) }
  | .bury =>
    let (n, data) := m.data.pop
    let (w, data) := data.pop
    { m with data := data.putFromTop n.offset w }
  | .buryAt n =>
    let (w, data) := m.data.pop
    { m with data := data.putFromTop n w }
  | .load =>
    let (a, data) := m.data.pop
    let m := { m with data }
    { m with data := m.data.push (m.get a.address) }
  | .loadAt addr => { m with data := m.data.push (m.get addr) }
  | .loadDirect addr => { m with data := m.data.push (m.memory.get addr) }
  | .store =>
    let (a, data) := m.data.pop
    let (w, data) := data.pop
    { m with data }.put a.address w
  | .storeAt addr =>
    let (w, data) := m.data.pop
    { m with data }.put addr w
  | .storeDirect addr =>
    let (w, data) := m.data.pop
    { m with data, memory := m.memory.put addr w }
  | .fromControl =>
    let (w, control) := m.control.pop
    { m with control, data := m.data.push w }
  | .toControl =>
    let (w, data) := m.data.pop
    { m with data, control := m.control.push w }
  | .toControlWith w => { m with control := m.control.push w }
  | .controlPeek n => { m with data := m.data.push (m.control.fromTop n) }
  | .mark marker => { m with control := m.control.push marker }
  | .markCounted marker =>
    let (count, data) := m.data.pop
    { m with data, control := (m.control.push count).push marker }
  | .markCountedWith count marker => { m with control := (m.control.push count).push marker }
  | .define entry =>
    let (a, data) := m.data.pop
    { m with data }.put a.address entry
  | .defineAt addr entry => m.put addr entry
  | .context => m.pushContext

/-- Where control goes after a block. -/
inductive Flow where
  | goto (target : Int)
  | stop (finish : PassEnd)
deriving DecidableEq

/-- Performs the exit of a block. -/
@[inline]
def transfer (m : Machine) : Exit → Flow × Machine
  | .goto next => (.goto next, m)
  | .ifZero skipTo next =>
    let (w, data) := m.data.pop
    (.goto (if w = 0 then skipTo else next), { m with data })
  | .loopWhile next =>
    let (w, data) := m.data.pop
    if w = 0 then (.goto next, { m with data, control := m.control.drop })
    else (.goto m.control.top.offset, { m with data })
  | .countDown next =>
    -- without a counter there is nothing to count: the loop is left
    if m.control.size < 2 then (.goto next, { m with control := m.control.clear })
    else
      let count := m.control.fromTop 1 - Word.one
      if count = 0 then (.goto next, { m with control := m.control.drop.drop })
      else (.goto m.control.top.offset, { m with control := m.control.putFromTop 1 count })
  | .ret =>
    let (w, control) := m.control.pop
    (.goto w.offset, { m with control })
  | .call back slot =>
    let m := { m with control := m.control.push back }
    match slot with
    | some addr => (.goto (m.get addr).offset, m)
    | none =>
      let (a, data) := m.data.pop
      let m := { m with data }
      (.goto (m.get a.address).offset, m)
  | .jump =>
    let (w, data) := m.data.pop
    (.goto w.offset, { m with data })
  | .jumpTo target => (.goto target, m)
  | .switch addr resume =>
    if m.maySwitch then
      let (video, data) := m.data.pop
      (.stop (.switched video resume), { m with data })
    else (.stop (.halted (.illegalMediaSwitch addr)), m)
  | .terminate addr => (.stop (.halted (.terminated addr)), m)

end GlyphMachine.Machine
