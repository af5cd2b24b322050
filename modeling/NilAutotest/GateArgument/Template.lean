import NilAutotest.GateArgument.Program

/-!
# The gates of the template circuit

The gates are numbered in the order in which they are evaluated. Gates 5 and 9 have their
selectors exchanged. A coefficient near the modulus stands for a negative number.
-/

namespace GateArgument

/-- `get_witness_i_by_rotation_idx(idx, rot_idx)` -/
abbrev w (idx rotIdx : Nat) : Cell := .witness idx rotIdx

/-! ## `gate0.sol` -/

def gate0 : Gate where
  selector := 0
  constraints := [
    [.scaled 0x40000000000000000000000000000000224698fb094cf91b992d30ed00000001 [w 0 1],
     .scaled 0x40000000000000000000000000000000224698fc094cf91a992d30ed00000001 [w 1 1],
     .scaled 0x40000000000000000000000000000000224698fc094cf91b992d30ec00000001 [w 2 1],
     .scaled 0x40000000000000000000000000000000224698fc094cf91b992d30ed00000000 [w 3 1],
     .plain (w 8 0) []],
    [.scaled 0x40000000000000000000000000000000224698fb094cf91b992d30ed00000001 [w 4 1],
     .scaled 0x40000000000000000000000000000000224698fc094cf91a992d30ed00000001 [w 5 1],
     .scaled 0x40000000000000000000000000000000224698fc094cf91b992d30ec00000001 [w 6 1],
     .scaled 0x40000000000000000000000000000000224698fc094cf91b992d30ed00000000 [w 7 1],
     .plain (w 8 2) []],
    [.scaled 0x40000000000000000000000000000000224698fc094cf91b992d30ecffff0001 [w 1 0],
     .scaled 0x40000000000000000000000000000000224698fc094cf91b992d30ed00000000 [w 0 0],
     .plain (w 3 1) []],
    [.scaled 0x40000000000000000000000000000000224698fc094cf91b992d30ecffff0001 [w 3 0],
     .scaled 0x40000000000000000000000000000000224698fc094cf91b992d30ed00000000 [w 2 0],
     .plain (w 2 1) []],
    [.scaled 0x40000000000000000000000000000000224698fc094cf91b992d30ecffff0001 [w 5 0],
     .scaled 0x40000000000000000000000000000000224698fc094cf91b992d30ed00000000 [w 4 0],
     .plain (w 1 1) []],
    [.scaled 0x40000000000000000000000000000000224698fc094cf91b992d30ecffff0001 [w 7 0],
     .scaled 0x40000000000000000000000000000000224698fc094cf91b992d30ed00000000 [w 6 0],
     .plain (w 0 1) []],
    [.scaled 0x40000000000000000000000000000000224698fc094cf91b992d30ecffff0001 [w 1 2],
     .scaled 0x40000000000000000000000000000000224698fc094cf91b992d30ed00000000 [w 0 2],
     .plain (w 7 1) []],
    [.scaled 0x40000000000000000000000000000000224698fc094cf91b992d30ecffff0001 [w 3 2],
     .scaled 0x40000000000000000000000000000000224698fc094cf91b992d30ed00000000 [w 2 2],
     .plain (w 6 1) []],
    [.scaled 0x40000000000000000000000000000000224698fc094cf91b992d30ecffff0001 [w 5 2],
     .scaled 0x40000000000000000000000000000000224698fc094cf91b992d30ed00000000 [w 4 2],
     .plain (w 5 1) []],
    [.scaled 0x40000000000000000000000000000000224698fc094cf91b992d30ecffff0001 [w 7 2],
     .scaled 0x40000000000000000000000000000000224698fc094cf91b992d30ed00000000 [w 6 2],
     .plain (w 4 1) []]]

def gate1 : Gate where
  selector := 1
  constraints := [
    [.scaled 0x40000000000000000000000000000000224698fc094cf91b992d30ecfffc0001 [w 4 0],
     .scaled 0x40000000000000000000000000000000224698fc094cf91b992d30ecffffff81 [w 3 0],
     .scaled 0x40000000000000000000000000000000224698fc094cf91b992d30ecfffffff9 [w 2 0],
     .scaled 0x40000000000000000000000000000000224698fc094cf91b992d30ed00000000 [w 1 0],
     .plain (w 0 0) []],
    [.scaled 0x40000000000000000000000000000000224698fc094cf91b992d30ecffffec51 [w 1 0],
     .scaled 0x330c [w 1 0, w 1 0],
     .scaled 0x40000000000000000000000000000000224698fc094cf91b992d30ecffffccb5
       [w 1 0, w 1 0, w 1 0],
     .scaled 0x1a71 [w 1 0, w 1 0, w 1 0, w 1 0],
     .scaled 0x142 [w 1 0, w 1 0, w 1 0, w 1 0, w 1 0, w 1 0],
     .scaled 0x40000000000000000000000000000000224698fc094cf91b992d30ecffffffe5
       [w 1 0, w 1 0, w 1 0, w 1 0, w 1 0, w 1 0, w 1 0],
     .scaled 0x40000000000000000000000000000000224698fc094cf91b992d30ecfffff859
       [w 1 0, w 1 0, w 1 0, w 1 0, w 1 0],
     .plain (w 1 0) [w 1 0, w 1 0, w 1 0, w 1 0, w 1 0, w 1 0, w 1 0]],
    [.scaled 0x40000000000000000000000000000000224698fc094cf91b992930ecf0000001 [w 7 0],
     .scaled 0x40000000000000000000000000000000224698fc094cf91b992d30ecbfc00000 [w 4 1],
     .scaled 0x40000000000000000000000000000000224698fc094cf91b992d2cecffffff00 [w 3 1],
     .scaled 0x40000000000000000000000000000000224698fc094cf91b982d30e900000000 [w 2 1],
     .scaled 0x1000000000000000 [w 8 1],
     .scaled 0x100000000000000 [w 7 1],
     .scaled 0x10000000 [w 6 1],
     .plain (w 5 1) []]]

def gate2 : Gate where
  selector := 2
  constraints := [
    [.scaled 0x40000000000000000000000000000000224698fc094cf91b992d30ecf0000001 [w 7 1],
     .scaled 0x40000000000000000000000000000000224698fc094cf91b992d30ecffffc001 [w 6 1],
     .scaled 0x40000000000000000000000000000000224698fc094cf91b992d30ed00000000 [w 5 1],
     .scaled 0x40000000000000000000000000000000224698fc094cf91b992d30ecc0000001 [w 8 1],
     .scaled 0x40000000000000000000000000000000224698fc094cf91b992d30ecffffc001 [w 2 1],
     .scaled 0x40000000000000000000000000000000224698fc094cf91b992d30ed00000000 [w 1 0],
     .scaled 0x40000000000000000000000000000000224698fc094cf91b992d30ecc0000001 [w 4 1],
     .scaled 0x40000000000000000000000000000000224698fc094cf91b992d30ecf0000001 [w 3 1],
     .scaled 0x40000000000000000000000000000000224698fc094cf91b992d30ed00000000 [w 0 0],
     .scaled 0x100000000 [w 0 2],
     .scaled 0x40000000000000000000000000000000224698fc094cf91b992d30ed00000000 [w 1 1],
     .plain (w 0 1) []],
    [.scaled 0x40000000000000000000000000000000224698fc094cf91b992d30ecfffffffb [w 0 2],
     .scaled 0xb [w 0 2, w 0 2],
     .scaled 0x40000000000000000000000000000000224698fc094cf91b992d30ecfffffffb
       [w 0 2, w 0 2, w 0 2],
     .plain (w 0 2) [w 0 2, w 0 2, w 0 2]]]

def gate3 : Gate where
  selector := 3
  constraints := [
    [.scaled 0x40000000000000000000000000000000224698fc094cf91b992d30ecfff80001 [w 4 1],
     .scaled 0x40000000000000000000000000000000224698fc094cf91b992d30ecfffe0001 [w 3 1],
     .scaled 0x40000000000000000000000000000000224698fc094cf91b992d30ecfffffc01 [w 2 1],
     .scaled 0x40000000000000000000000000000000224698fc094cf91b992d30ed00000000 [w 1 1],
     .plain (w 0 1) []],
    [.scaled 0x40000000000000000000000000000000224698fc094cf91b992d30ecfffffffb [w 3 1],
     .scaled 0xb [w 3 1, w 3 1],
     .scaled 0x40000000000000000000000000000000224698fc094cf91b992d30ecfffffffb
       [w 3 1, w 3 1, w 3 1],
     .plain (w 3 1) [w 3 1, w 3 1, w 3 1]],
    [.scaled 0x40000000000000000000000000000000224698fc094cf91b992d30ecbc000001 [w 1 0],
     .scaled 0x40000000000000000000000000000000224698fc094cf91b992d30ecfffbfff0 [w 4 0],
     .scaled 0x40000000000000000000000000000000224698fc094cf91b892d30ecffffc000 [w 3 0],
     .scaled 0x40000000000000000000000000000000224698fc094cf91b9928f0ed00000000 [w 2 0],
     .scaled 0x1000000000000000 [w 8 0],
     .scaled 0x100000000000000 [w 7 0],
     .scaled 0x10000000 [w 6 0],
     .plain (w 5 0) []]]

def gate4 : Gate where
  selector := 4
  constraints := [
    [.scaled 0x40000000000000000000000000000000224698fc094cf91b992d30ecfe000001 [w 5 0],
     .scaled 0x40000000000000000000000000000000224698fc094cf91b992d30ecfffff801 [w 4 0],
     .scaled 0x40000000000000000000000000000000224698fc094cf91b992d30ecffffffc1 [w 3 0],
     .scaled 0x40000000000000000000000000000000224698fc094cf91b992d30ed00000000 [w 2 0],
     .plain (w 0 0) []],
    [.scaled 0x40000000000000000000000000000000224698fc094cf8d2e61c5ca0a1eff23a [w 4 1],
     .scaled 0x40000000000000000000000000000000224698fc094cf91b992d30ec8a24636a [w 3 1],
     .scaled 0x40000000000000000000000000000000224698fc094cf91b992d30ecfffe3470 [w 2 1],
     .scaled 0x40000000000000000000000000000000224698fc094cf91b992d30ed00000000 [w 1 0],
     .plain (w 0 1) []],
    [.scaled 0x40000000000000000000000000000000224698fc094cf71eabf7085562106e72 [w 1 0],
     .scaled 0x40000000000000000000000000000000224698fc094cf91b9904b112fc6609d8 [w 4 1],
     .scaled 0x40000000000000000000000000000000224698fc094cf91b992767e469f2b8a8 [w 3 1],
     .scaled 0x40000000000000000000000000000000224698fc094ceb3152f48e386fe46402 [w 2 1],
     .scaled 0x12a4e415e1e1b36ff883d1 [w 8 1],
     .scaled 0x6167eb8c7252078275a1 [w 7 1],
     .scaled 0x9de93ece51 [w 6 1],
     .plain (w 5 1) []]]

def gate5 : Gate where
  selector := 9
  constraints := [
    [.scaled 0x40000000000000000000000000000000224698fc094cf91b992d30ecffffffff [w 1 0],
     .scaled 0x40000000000000000000000000000000224698fc094cf91b992d30ecfffffffe [w 0 2],
     .scaled 0x40000000000000000000000000000000224698fc094cf91b992d30ed00000000 [w 0 0],
     .scaled 0xa62b942e656949441 [w 3 1],
     .scaled 0x1e39a5057d81 [w 2 1],
     .scaled 0x57f6c1 [w 1 1],
     .plain (w 0 1) []]]

def gate6 : Gate where
  selector := 6
  constraints := [
    [.scaled 0x40000000000000000000000000000000224698fc094cf91b992d30ed00000000 [w 3 1],
     .scaled 0x40000000000000000000000000000000224698fc094cf91b992d30ecffff0001 [w 7 1],
     .scaled 0x40000000000000000000000000000000224698fc094cf91b992d30ed00000000 [w 5 1],
     .scaled 0x40000000000000000000000000000000224698fc094cf91b992d30ecc0000001 [w 8 0],
     .scaled 0x40000000000000000000000000000000224698fc094cf91b992d30ecffffff01 [w 6 1],
     .scaled 0x40000000000000000000000000000000224698fc094cf91b992d30ecffffc001 [w 6 0],
     .scaled 0x40000000000000000000000000000000224698fc094cf91b992d30ed00000000 [w 5 0],
     .scaled 0x40000000000000000000000000000000224698fc094cf91b992d30ecff000001 [w 8 1],
     .scaled 0x40000000000000000000000000000000224698fc094cf91b992d30ed00000000 [w 2 1],
     .scaled 0x40000000000000000000000000000000224698fc094cf91b992d30ed00000000 [.constant 0],
     .scaled 0x40000000000000000000000000000000224698fc094cf91b992d30ecf0000001 [w 7 0],
     .plain (w 4 2) []],
    [.scaled 0x40000000000000000000000000000000224698fc094cf91b992d30ed00000000 [w 4 2],
     .scaled 0x40000000000000000000000000000000224698fc094cf91b992d30ed00000000 [w 1 1],
     .scaled 0x100000000 [w 4 0],
     .plain (w 4 1) []],
    [.scaled 0x40000000000000000000000000000000224698fc094cf91b992d30ecffffff89 [w 4 0],
     .scaled 0x112 [w 4 0, w 4 0],
     .scaled 0x40000000000000000000000000000000224698fc094cf91b992d30ecffffff20
       [w 4 0, w 4 0, w 4 0],
     .scaled 0x55 [w 4 0, w 4 0, w 4 0, w 4 0],
     .scaled 0x40000000000000000000000000000000224698fc094cf91b992d30ecfffffff2
       [w 4 0, w 4 0, w 4 0, w 4 0, w 4 0],
     .plain (w 4 0) [w 4 0, w 4 0, w 4 0, w 4 0, w 4 0]]]

def gate7 : Gate where
  selector := 7
  constraints := [
    [.scaled 0x40000000000000000000000000000000224698fc094cf91b992d30ecffffff01 [w 6 1],
     .scaled 0x40000000000000000000000000000000224698fc094cf91b992d30ed00000000 [w 5 1],
     .scaled 0x40000000000000000000000000000000224698fc094cf91b992d30ecf0000001 [w 7 2],
     .scaled 0x40000000000000000000000000000000224698fc094cf91b992d30ecffff0001 [w 7 1],
     .scaled 0x40000000000000000000000000000000224698fc094cf91b992d30ecffffc001 [w 6 2],
     .scaled 0x40000000000000000000000000000000224698fc094cf91b992d30ecff000001 [w 8 1],
     .scaled 0x40000000000000000000000000000000224698fc094cf91b992d30ed00000000 [w 5 2],
     .scaled 0x40000000000000000000000000000000224698fc094cf91b992d30ed00000000 [w 4 1],
     .scaled 0x40000000000000000000000000000000224698fc094cf91b992d30ecc0000001 [w 8 2],
     .scaled 0x100000000 [w 3 2],
     .plain (w 2 2) []],
    [.scaled 0x2d0 [w 3 2],
     .scaled 0x40000000000000000000000000000000224698fc094cf91b992d30ecfffff91d [w 3 2, w 3 2],
     .scaled 0x658 [w 3 2, w 3 2, w 3 2],
     .scaled 0x40000000000000000000000000000000224698fc094cf91b992d30ecfffffd22
       [w 3 2, w 3 2, w 3 2, w 3 2],
     .scaled 0xaf [w 3 2, w 3 2, w 3 2, w 3 2, w 3 2],
     .scaled 0x40000000000000000000000000000000224698fc094cf91b992d30ecffffffec
       [w 3 2, w 3 2, w 3 2, w 3 2, w 3 2, w 3 2],
     .plain (w 3 2) [w 3 2, w 3 2, w 3 2, w 3 2, w 3 2, w 3 2]]]

def gate8 : Gate where
  selector := 8
  constraints := [
    [.scaled 0x40000000000000000000000000000000224698fc094cf91b992d30ed00000000 [w 4 2],
     .scaled 0x40000000000000000000000000000000224698fc094cf91b992d30ed00000000 [w 1 2],
     .scaled 0x40000000000000000000000000000000224698fc094cf91b992d30ed00000000 [w 0 2],
     .scaled 0x1000000000000 [w 3 1],
     .scaled 0x100000000 [w 2 1],
     .scaled 0x10000 [w 1 1],
     .plain (w 0 1) []]]

def gate9 : Gate where
  selector := 5
  constraints := [
    [.scaled 0x40000000000000000000000000000000224698fc094cf91b992d30ecffc00001 [w 5 2],
     .scaled 0x40000000000000000000000000000000224698fc094cf91b992d30ecffffe001 [w 4 2],
     .scaled 0x40000000000000000000000000000000224698fc094cf91b992d30ecfffffffd [w 3 2],
     .scaled 0x40000000000000000000000000000000224698fc094cf91b992d30ed00000000 [w 2 2],
     .plain (w 0 2) []],
    [.scaled 0x40000000000000000000000000000000224698fc094cf91b992d20ed00000001 [w 5 1],
     .scaled 0x40000000000000000000000000000000224698fc094cf91b992d30ed00000000 [w 2 1],
     .scaled 0x40000000000000000000000000000000224698fc094cf91b992d30ecfc000001 [w 4 1],
     .scaled 0x40000000000000000000000000000000224698fc094cf91b992d30ecfffffff1 [w 3 1],
     .plain (w 0 0) []],
    [.scaled 0xb [w 2 2, w 2 2],
     .scaled 0x40000000000000000000000000000000224698fc094cf91b992d30ecfffffffb
       [w 2 2, w 2 2, w 2 2],
     .scaled 0x40000000000000000000000000000000224698fc094cf91b992d30ecfffffffb [w 2 2],
     .plain (w 2 2) [w 2 2, w 2 2, w 2 2]],
    [.scaled 0x40000000000000000000000000000000224698fc094cf91b992d2fecfffc0000 [w 5 1],
     .scaled 0x40000000000000000000000000000000224698fc094cf91b992cf0ecffc00000 [w 4 1],
     .scaled 0x40000000000000000000000000000000224698fc094cf91b992d2cecff000000 [w 3 1],
     .scaled 0x40000000000000000000000000000000224698fc094cf91b892d30acfff00001 [w 2 1],
     .scaled 0x1000000000000000 [w 7 1],
     .scaled 0x100000000000000 [w 6 1],
     .scaled 0x10000000 [w 1 1],
     .plain (w 0 1) []]]

def gate10 : Gate where
  selector := 10
  constraints := [
    [.scaled 0x40000000000000000000000000000000224698fc094cf91b992d30ed00000000 [w 0 1],
     .scaled 0x100000000 [w 4 2],
     .scaled 0x40000000000000000000000000000000224698fc094cf91b992d30ed00000000 [w 4 1],
     .plain (w 0 2) []],
    [.scaled 0x40000000000000000000000000000000224698fc094cf91b992d30ed00000000 [w 5 1],
     .scaled 0x40000000000000000000000000000000224698fc094cf91b992d30ed00000000 [w 1 1],
     .scaled 0x100000000 [w 5 2],
     .plain (w 1 2) []],
    [.scaled 0x40000000000000000000000000000000224698fc094cf91b992d30ed00000000 [w 6 1],
     .scaled 0x40000000000000000000000000000000224698fc094cf91b992d30ed00000000 [w 2 1],
     .scaled 0x100000000 [w 6 2],
     .plain (w 2 2) []],
    [.scaled 0x40000000000000000000000000000000224698fc094cf91b992d30ed00000000 [w 7 1],
     .scaled 0x40000000000000000000000000000000224698fc094cf91b992d30ed00000000 [w 3 1],
     .scaled 0x100000000 [w 7 2],
     .plain (w 3 2) []]]

def gate11 : Gate where
  selector := 11
  constraints := [
    [.scaled 0x40000000000000000000000000000000224698fb094cf91b992d30ed00000001 [w 4 1],
     .scaled 0x40000000000000000000000000000000224698fc094cf91a992d30ed00000001 [w 5 1],
     .scaled 0x40000000000000000000000000000000224698fc094cf91b992d30ec00000001 [w 6 1],
     .scaled 0x40000000000000000000000000000000224698fc094cf91b992d30ed00000000 [w 7 1],
     .plain (w 1 2) []],
    [.scaled 0x40000000000000000000000000000000224698fb094cf91b992d30ed00000001 [w 0 1],
     .scaled 0x40000000000000000000000000000000224698fc094cf91a992d30ed00000001 [w 1 1],
     .scaled 0x40000000000000000000000000000000224698fc094cf91b992d30ec00000001 [w 2 1],
     .scaled 0x40000000000000000000000000000000224698fc094cf91b992d30ed00000000 [w 3 1],
     .plain (w 0 2) []]]

def gate12 : Gate where
  selector := 12
  constraints := [
    [.scaled 0x40000000000000000000000000000000224698fc094cf91b992d30ed00000000 [w 2 1],
     .plain (w 1 1) [],
     .plain (w 0 1) []]]

def gate13 : Gate where
  selector := 13
  constraints := [
    [.scaled 0x40000000000000000000000000000000224698fc094cf91b992d30ecfffffffb [w 0 1],
     .scaled 0xb [w 0 1, w 0 1],
     .scaled 0x40000000000000000000000000000000224698fc094cf91b992d30ecfffffffb
       [w 0 1, w 0 1, w 0 1],
     .plain (w 0 1) [w 0 1, w 0 1, w 0 1]],
    [.scaled 0x40000000000000000000000000000000224698fc094cf91b992d30ecfffffffb [w 1 1],
     .scaled 0xb [w 1 1, w 1 1],
     .scaled 0x40000000000000000000000000000000224698fc094cf91b992d30ecfffffffb
       [w 1 1, w 1 1, w 1 1],
     .plain (w 1 1) [w 1 1, w 1 1, w 1 1]],
    [.scaled 0x40000000000000000000000000000000224698fc094cf91b992d30ecfffffffd [w 2 2],
     .scaled 0x3 [w 2 2, w 2 2],
     .plain (w 2 2) [w 2 2, w 2 2]],
    [.scaled 0x40000000000000000000000000000000224698fc094cf91b992d30ed00000000 [w 2 0],
     .scaled 0x100000000000000000000000000000000891a63f02533e46e64b4c3b40000000
       [w 1 1, w 2 0, w 2 0],
     .scaled 0x3000000000000000000000000000000019b4f2bd06f9bad4b2e1e4b1c0000000 [w 1 1, w 2 0],
     .plain (w 1 1) [],
     .scaled 0x40000000000000000000000000000000224698fc094cf91b992d30ed00000000 [w 0 1],
     .scaled 0x3000000000000000000000000000000019b4f2bd06f9bad4b2e1e4b1c0000001
       [w 0 1, w 2 0, w 2 0],
     .scaled 0x100000000000000000000000000000000891a63f02533e46e64b4c3b40000001 [w 0 1, w 2 0],
     .plain (w 2 1) []],
    [.scaled 0x40000000000000000000000000000000224698fc094cf91b992d30ecfffffffd [w 2 1],
     .scaled 0x3 [w 2 1, w 2 2],
     .plain (w 2 1) [w 2 2, w 2 2]],
    [.scaled 0x6 [w 2 2],
     .plain (w 2 1) [w 2 1, w 2 1, w 2 1],
     .scaled 0xb [w 2 1, w 2 1],
     .scaled 0x40000000000000000000000000000000224698fc094cf91b992d30ecfffffffb
       [w 2 1, w 2 1, w 2 1],
     .scaled 0x6 [w 2 1, w 2 1, w 2 2, w 2 2],
     .scaled 0x40000000000000000000000000000000224698fc094cf91b992d30ecfffffffd
       [w 2 1, w 2 1, w 2 1, w 2 2],
     .scaled 0x40000000000000000000000000000000224698fc094cf91b992d30ecffffffeb [w 2 1, w 2 2],
     .scaled 0x12 [w 2 1, w 2 1, w 2 2],
     .plain (w 2 2) [w 2 2, w 2 2, w 2 2],
     .scaled 0x40000000000000000000000000000000224698fc094cf91b992d30ecfffffffd
       [w 2 1, w 2 2, w 2 2, w 2 2],
     .scaled 0x40000000000000000000000000000000224698fc094cf91b992d30ecffffffef
       [w 2 1, w 2 2, w 2 2],
     .scaled 0x40000000000000000000000000000000224698fc094cf91b992d30ecfffffffb [w 2 1],
     .scaled 0x6 [w 2 2, w 2 2, w 2 2],
     .scaled 0xb [w 2 2, w 2 2]],
    [.scaled 0x40000000000000000000000000000000224698fc094cf91b992d30ed00000000 [w 0 1],
     .scaled 0x40000000000000000000000000000000224698fc094cf91b992d30ecfffffffd [w 0 0],
     .plain (w 0 2) []],
    [.scaled 0x40000000000000000000000000000000224698fc094cf91b992d30ed00000000 [w 1 1],
     .scaled 0x40000000000000000000000000000000224698fc094cf91b992d30ecfffffffd [w 1 0],
     .plain (w 1 2) []]]

def gate14 : Gate where
  selector := 14
  constraints := [
    [.scaled 0x166666666666666666666666666666667265825836748a6342696ab95999999a [w 2 0],
     .scaled 0x29999999999999999999999999999999afe116a3d2d86eb856c3c633a6666667 [w 2 0, w 2 0],
     .plain (w 0 1) []]]

/-- The gates of the library `template_gate0`. -/
def templateGate0 : List Gate :=
  [gate0, gate1, gate2, gate3, gate4, gate5, gate6, gate7, gate8, gate9, gate10, gate11, gate12,
   gate13, gate14]

/-! ## `gate15.sol` -/

def gate15 : Gate where
  selector := 15
  constraints := [
    [.scaled 0x40000000000000000000000000000000224698fc094cf91b992d30ecfffffffb [w 0 1],
     .scaled 0xb [w 0 1, w 0 1],
     .scaled 0x40000000000000000000000000000000224698fc094cf91b992d30ecfffffffb
       [w 0 1, w 0 1, w 0 1],
     .plain (w 0 1) [w 0 1, w 0 1, w 0 1]],
    [.scaled 0x40000000000000000000000000000000224698fc094cf91b992d30ecfffffffb [w 1 1],
     .scaled 0xb [w 1 1, w 1 1],
     .scaled 0x40000000000000000000000000000000224698fc094cf91b992d30ecfffffffb
       [w 1 1, w 1 1, w 1 1],
     .plain (w 1 1) [w 1 1, w 1 1, w 1 1]],
    [.scaled 0x40000000000000000000000000000000224698fc094cf91b992d30ecfffffffd [w 2 2],
     .scaled 0x3 [w 2 2, w 2 2],
     .plain (w 2 2) [w 2 2, w 2 2]],
    [.scaled 0x40000000000000000000000000000000224698fc094cf91b992d30ed00000000 [w 2 0],
     .scaled 0x100000000000000000000000000000000891a63f02533e46e64b4c3b40000000
       [w 1 1, w 2 0, w 2 0],
     .scaled 0x3000000000000000000000000000000019b4f2bd06f9bad4b2e1e4b1c0000000 [w 1 1, w 2 0],
     .plain (w 1 1) [],
     .scaled 0x40000000000000000000000000000000224698fc094cf91b992d30ed00000000 [w 0 1],
     .scaled 0x3000000000000000000000000000000019b4f2bd06f9bad4b2e1e4b1c0000001
       [w 0 1, w 2 0, w 2 0],
     .scaled 0x100000000000000000000000000000000891a63f02533e46e64b4c3b40000001 [w 0 1, w 2 0],
     .plain (w 2 1) []],
    [.scaled 0x40000000000000000000000000000000224698fc094cf91b992d30ecfffffffd [w 2 1],
     .scaled 0x3 [w 2 1, w 2 2],
     .plain (w 2 1) [w 2 2, w 2 2]],
    [.scaled 0x6 [w 2 2],
     .plain (w 2 1) [w 2 1, w 2 1, w 2 1],
     .scaled 0xb [w 2 1, w 2 1],
     .scaled 0x40000000000000000000000000000000224698fc094cf91b992d30ecfffffffb
       [w 2 1, w 2 1, w 2 1],
     .scaled 0x6 [w 2 1, w 2 1, w 2 2, w 2 2],
     .scaled 0x40000000000000000000000000000000224698fc094cf91b992d30ecfffffffd
       [w 2 1, w 2 1, w 2 1, w 2 2],
     .scaled 0x40000000000000000000000000000000224698fc094cf91b992d30ecffffffeb [w 2 1, w 2 2],
     .scaled 0x12 [w 2 1, w 2 1, w 2 2],
     .plain (w 2 2) [w 2 2, w 2 2, w 2 2],
     .scaled 0x40000000000000000000000000000000224698fc094cf91b992d30ecfffffffd
       [w 2 1, w 2 2, w 2 2, w 2 2],
     .scaled 0x40000000000000000000000000000000224698fc094cf91b992d30ecffffffef
       [w 2 1, w 2 2, w 2 2],
     .scaled 0x40000000000000000000000000000000224698fc094cf91b992d30ecfffffffb [w 2 1],
     .scaled 0x6 [w 2 2, w 2 2, w 2 2],
     .scaled 0xb [w 2 2, w 2 2]],
    [.scaled 0x40000000000000000000000000000000224698fc094cf91b992d30ed00000000 [w 0 1],
     .scaled 0x40000000000000000000000000000000224698fc094cf91b992d30ecfffffffd [w 0 0],
     .plain (w 0 2) []],
    [.scaled 0x40000000000000000000000000000000224698fc094cf91b992d30ed00000000 [w 1 1],
     .scaled 0x40000000000000000000000000000000224698fc094cf91b992d30ecfffffffd [w 1 0],
     .plain (w 1 2) []]]

def gate16 : Gate where
  selector := 16
  constraints := [
    [.scaled 0x333333333333333333333333333333334e9ee0c9a10a60e2e0f0f3f0ccccccc [w 2 0],
     .scaled 0x3ccccccccccccccccccccccccccccccced5caaef6f3c530d6b1e21adf3333334 [w 2 0, w 2 0],
     .plain (w 0 1) []]]

/-- The gates of the library `template_gate15`. -/
def templateGate15 : List Gate :=
  [gate15, gate16]

end GateArgument
