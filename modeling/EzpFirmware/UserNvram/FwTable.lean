import EzpFirmware.Lib.CString

/-! # The table of firmware releases

Each release has the function that migrates the variables from the release
before it, and one that goes back. The table is looked up by the version string
and then indexed by the number of the release.
-/
namespace EzpFirmware.UserNvram
open Lib

inductive NvramFwVersion where
  | NVRAM_FW_0_0_0 | NVRAM_FW_1_6_5 | NVRAM_FW_1_6_6 | NVRAM_FW_1_6_7 | NVRAM_FW_1_7_0
  | NVRAM_FW_1_7_1 | NVRAM_FW_1_7_2 | NVRAM_FW_1_7_3 | NVRAM_FW_1_7_4 | NVRAM_FW_1_7_5
  | NVRAM_FW_1_7_6 | NVRAM_FW_1_7_7 | NVRAM_FW_1_7_8 | NVRAM_FW_1_7_9 | NVRAM_FW_1_7_10
  | NVRAM_FW_1_7_11 | NVRAM_FW_2_0_0 | NVRAM_FW_2_0_1 | NVRAM_FW_2_0_2 | NVRAM_FW_2_0_3
  | NVRAM_FW_2_0_4 | NVRAM_FW_2_0_5 | NVRAM_FW_2_0_6 | NVRAM_FW_2_0_7 | NVRAM_FW_2_0_8
  | NVRAM_FW_2_0_9 | NVRAM_FW_2_0_10 | NVRAM_FW_2_0_11 | NVRAM_FW_2_0_12 | NVRAM_FW_2_0_13
  | NVRAM_FW_2_0_14 | NVRAM_FW_2_0_15 | NVRAM_FW_3_0_0 | NVRAM_FW_3_0_1 | NVRAM_FW_3_0_2
  | NVRAM_FW_3_0_3 | NVRAM_FW_3_0_4 | NVRAM_FW_3_0_5 | NVRAM_FW_3_0_6 | NVRAM_FW_3_0_7
  | NVRAM_FW_3_0_8 | NVRAM_FW_3_0_9 | NVRAM_FW_3_0_10 | NVRAM_FW_3_0_11 | NVRAM_FW_3_0_12
  | NVRAM_FW_3_0_13 | NVRAM_FW_3_0_14 | NVRAM_FW_3_0_15 | NVRAM_FW_3_0_16 | NVRAM_FW_3_0_17
  | NVRAM_FW_3_0_18 | NVRAM_FW_3_0_19 | NVRAM_FW_3_0_20 | NVRAM_FW_3_1_0 | NVRAM_FW_3_1_1
  | NVRAM_FW_3_1_2 | NVRAM_FW_3_1_3 | NVRAM_FW_3_1_4 | NVRAM_FW_3_1_5 | NVRAM_FW_3_1_6
  | NVRAM_FW_3_1_7 | NVRAM_FW_3_1_8 | NVRAM_FW_3_1_9 | NVRAM_FW_3_1_10 | NVRAM_FW_3_2_0
  | NVRAM_FW_3_2_1 | NVRAM_FW_3_2_2 | NVRAM_FW_INVALID
  deriving DecidableEq

open NvramFwVersion

/-- `fw_func_<source>_to_<target>`. -/
structure FwFunc where
  source : NvramFwVersion
  target : NvramFwVersion
  deriving DecidableEq

structure NvramFwTuple where
  fwStr : CStr
  fwVersion : NvramFwVersion
  fwUpgradeFunc : Option FwFunc
  fwDowngradeFunc : Option FwFunc
  deriving DecidableEq

/-- The rows in front of the one that ends the table. -/
def nvramFwTable : List NvramFwTuple := [
  ⟨.ofString "0.0.0", NVRAM_FW_0_0_0, none,
    none⟩,
  ⟨.ofString "1.6.5", NVRAM_FW_1_6_5, some ⟨NVRAM_FW_0_0_0, NVRAM_FW_1_6_5⟩,
    some ⟨NVRAM_FW_1_6_5, NVRAM_FW_0_0_0⟩⟩,
  ⟨.ofString "1.6.6", NVRAM_FW_1_6_6, some ⟨NVRAM_FW_1_6_5, NVRAM_FW_1_6_6⟩,
    some ⟨NVRAM_FW_1_6_6, NVRAM_FW_1_6_5⟩⟩,
  ⟨.ofString "1.6.7", NVRAM_FW_1_6_7, some ⟨NVRAM_FW_1_6_6, NVRAM_FW_1_6_7⟩,
    some ⟨NVRAM_FW_1_6_7, NVRAM_FW_1_6_6⟩⟩,
  ⟨.ofString "1.7.0", NVRAM_FW_1_7_0, some ⟨NVRAM_FW_1_6_7, NVRAM_FW_1_7_0⟩,
    some ⟨NVRAM_FW_1_7_0, NVRAM_FW_1_6_7⟩⟩,
  ⟨.ofString "1.7.1", NVRAM_FW_1_7_1, some ⟨NVRAM_FW_1_7_0, NVRAM_FW_1_7_1⟩,
    some ⟨NVRAM_FW_1_7_1, NVRAM_FW_1_7_0⟩⟩,
  ⟨.ofString "1.7.2", NVRAM_FW_1_7_2, some ⟨NVRAM_FW_1_7_1, NVRAM_FW_1_7_2⟩,
    some ⟨NVRAM_FW_1_7_2, NVRAM_FW_1_7_1⟩⟩,
  ⟨.ofString "1.7.3", NVRAM_FW_1_7_3, some ⟨NVRAM_FW_1_7_2, NVRAM_FW_1_7_3⟩,
    some ⟨NVRAM_FW_1_7_3, NVRAM_FW_1_7_2⟩⟩,
  ⟨.ofString "1.7.4", NVRAM_FW_1_7_4, some ⟨NVRAM_FW_1_7_3, NVRAM_FW_1_7_4⟩,
    some ⟨NVRAM_FW_1_7_4, NVRAM_FW_1_7_3⟩⟩,
  ⟨.ofString "1.7.5", NVRAM_FW_1_7_5, some ⟨NVRAM_FW_1_7_4, NVRAM_FW_1_7_5⟩,
    some ⟨NVRAM_FW_1_7_5, NVRAM_FW_1_7_4⟩⟩,
  ⟨.ofString "1.7.6", NVRAM_FW_1_7_6, some ⟨NVRAM_FW_1_7_5, NVRAM_FW_1_7_6⟩,
    some ⟨NVRAM_FW_1_7_6, NVRAM_FW_1_7_5⟩⟩,
  ⟨.ofString "1.7.7", NVRAM_FW_1_7_7, some ⟨NVRAM_FW_1_7_6, NVRAM_FW_1_7_7⟩,
    some ⟨NVRAM_FW_1_7_7, NVRAM_FW_1_7_6⟩⟩,
  ⟨.ofString "1.7.8", NVRAM_FW_1_7_8, some ⟨NVRAM_FW_1_7_7, NVRAM_FW_1_7_8⟩,
    some ⟨NVRAM_FW_1_7_8, NVRAM_FW_1_7_7⟩⟩,
  ⟨.ofString "1.7.9", NVRAM_FW_1_7_9, some ⟨NVRAM_FW_1_7_8, NVRAM_FW_1_7_9⟩,
    some ⟨NVRAM_FW_1_7_9, NVRAM_FW_1_7_8⟩⟩,
  ⟨.ofString "1.7.10", NVRAM_FW_1_7_10, some ⟨NVRAM_FW_1_7_9, NVRAM_FW_1_7_10⟩,
    some ⟨NVRAM_FW_1_7_10, NVRAM_FW_1_7_9⟩⟩,
  ⟨.ofString "1.7.11", NVRAM_FW_1_7_11, some ⟨NVRAM_FW_1_7_10, NVRAM_FW_1_7_11⟩,
    some ⟨NVRAM_FW_1_7_11, NVRAM_FW_1_7_10⟩⟩,
  ⟨.ofString "2.0.0", NVRAM_FW_2_0_0, some ⟨NVRAM_FW_1_7_11, NVRAM_FW_2_0_0⟩,
    some ⟨NVRAM_FW_2_0_0, NVRAM_FW_1_7_11⟩⟩,
  ⟨.ofString "2.0.1", NVRAM_FW_2_0_1, some ⟨NVRAM_FW_2_0_0, NVRAM_FW_2_0_1⟩,
    some ⟨NVRAM_FW_2_0_1, NVRAM_FW_2_0_0⟩⟩,
  ⟨.ofString "2.0.2", NVRAM_FW_2_0_2, some ⟨NVRAM_FW_2_0_1, NVRAM_FW_2_0_2⟩,
    some ⟨NVRAM_FW_2_0_2, NVRAM_FW_2_0_1⟩⟩,
  ⟨.ofString "2.0.3", NVRAM_FW_2_0_3, some ⟨NVRAM_FW_2_0_2, NVRAM_FW_2_0_3⟩,
    some ⟨NVRAM_FW_2_0_3, NVRAM_FW_2_0_2⟩⟩,
  ⟨.ofString "2.0.4", NVRAM_FW_2_0_4, some ⟨NVRAM_FW_2_0_3, NVRAM_FW_2_0_4⟩,
    some ⟨NVRAM_FW_2_0_4, NVRAM_FW_2_0_3⟩⟩,
  ⟨.ofString "2.0.5", NVRAM_FW_2_0_5, some ⟨NVRAM_FW_2_0_4, NVRAM_FW_2_0_5⟩,
    some ⟨NVRAM_FW_2_0_5, NVRAM_FW_2_0_4⟩⟩,
  ⟨.ofString "2.0.6", NVRAM_FW_2_0_6, some ⟨NVRAM_FW_2_0_5, NVRAM_FW_2_0_6⟩,
    some ⟨NVRAM_FW_2_0_6, NVRAM_FW_2_0_5⟩⟩,
  ⟨.ofString "2.0.7", NVRAM_FW_2_0_7, some ⟨NVRAM_FW_2_0_6, NVRAM_FW_2_0_7⟩,
    some ⟨NVRAM_FW_2_0_7, NVRAM_FW_2_0_6⟩⟩,
  ⟨.ofString "2.0.8", NVRAM_FW_2_0_8, some ⟨NVRAM_FW_2_0_7, NVRAM_FW_2_0_8⟩,
    some ⟨NVRAM_FW_2_0_8, NVRAM_FW_2_0_7⟩⟩,
  ⟨.ofString "2.0.9", NVRAM_FW_2_0_9, some ⟨NVRAM_FW_2_0_8, NVRAM_FW_2_0_9⟩,
    some ⟨NVRAM_FW_2_0_9, NVRAM_FW_2_0_8⟩⟩,
  ⟨.ofString "2.0.10", NVRAM_FW_2_0_10, some ⟨NVRAM_FW_2_0_9, NVRAM_FW_2_0_10⟩,
    some ⟨NVRAM_FW_2_0_10, NVRAM_FW_2_0_9⟩⟩,
  ⟨.ofString "2.0.11", NVRAM_FW_2_0_11, some ⟨NVRAM_FW_2_0_10, NVRAM_FW_2_0_11⟩,
    some ⟨NVRAM_FW_2_0_11, NVRAM_FW_2_0_10⟩⟩,
  ⟨.ofString "2.0.12", NVRAM_FW_2_0_12, some ⟨NVRAM_FW_2_0_11, NVRAM_FW_2_0_12⟩,
    some ⟨NVRAM_FW_2_0_12, NVRAM_FW_2_0_11⟩⟩,
  ⟨.ofString "2.0.12", NVRAM_FW_2_0_13, some ⟨NVRAM_FW_2_0_12, NVRAM_FW_2_0_13⟩,
    some ⟨NVRAM_FW_2_0_13, NVRAM_FW_2_0_12⟩⟩,
  ⟨.ofString "2.0.12", NVRAM_FW_2_0_14, some ⟨NVRAM_FW_2_0_13, NVRAM_FW_2_0_14⟩,
    some ⟨NVRAM_FW_2_0_14, NVRAM_FW_2_0_13⟩⟩,
  ⟨.ofString "2.0.12", NVRAM_FW_2_0_15, some ⟨NVRAM_FW_2_0_14, NVRAM_FW_2_0_15⟩,
    some ⟨NVRAM_FW_2_0_15, NVRAM_FW_2_0_14⟩⟩,
  ⟨.ofString "3.0.0", NVRAM_FW_3_0_0, some ⟨NVRAM_FW_2_0_15, NVRAM_FW_3_0_0⟩,
    some ⟨NVRAM_FW_3_0_0, NVRAM_FW_2_0_15⟩⟩,
  ⟨.ofString "3.0.1", NVRAM_FW_3_0_1, some ⟨NVRAM_FW_3_0_0, NVRAM_FW_3_0_1⟩,
    some ⟨NVRAM_FW_3_0_1, NVRAM_FW_3_0_0⟩⟩,
  ⟨.ofString "3.0.2", NVRAM_FW_3_0_2, some ⟨NVRAM_FW_3_0_1, NVRAM_FW_3_0_2⟩,
    some ⟨NVRAM_FW_3_0_2, NVRAM_FW_3_0_1⟩⟩,
  ⟨.ofString "3.0.3", NVRAM_FW_3_0_3, some ⟨NVRAM_FW_3_0_2, NVRAM_FW_3_0_3⟩,
    some ⟨NVRAM_FW_3_0_3, NVRAM_FW_3_0_2⟩⟩,
  ⟨.ofString "3.0.4", NVRAM_FW_3_0_4, some ⟨NVRAM_FW_3_0_3, NVRAM_FW_3_0_4⟩,
    some ⟨NVRAM_FW_3_0_4, NVRAM_FW_3_0_3⟩⟩,
  ⟨.ofString "3.0.5", NVRAM_FW_3_0_5, some ⟨NVRAM_FW_3_0_4, NVRAM_FW_3_0_5⟩,
    some ⟨NVRAM_FW_3_0_5, NVRAM_FW_3_0_4⟩⟩,
  ⟨.ofString "3.0.6", NVRAM_FW_3_0_6, some ⟨NVRAM_FW_3_0_5, NVRAM_FW_3_0_6⟩,
    some ⟨NVRAM_FW_3_0_6, NVRAM_FW_3_0_5⟩⟩,
  ⟨.ofString "3.0.7", NVRAM_FW_3_0_7, some ⟨NVRAM_FW_3_0_6, NVRAM_FW_3_0_7⟩,
    some ⟨NVRAM_FW_3_0_7, NVRAM_FW_3_0_6⟩⟩,
  ⟨.ofString "3.0.8", NVRAM_FW_3_0_8, some ⟨NVRAM_FW_3_0_7, NVRAM_FW_3_0_8⟩,
    some ⟨NVRAM_FW_3_0_8, NVRAM_FW_3_0_7⟩⟩,
  ⟨.ofString "3.0.9", NVRAM_FW_3_0_9, some ⟨NVRAM_FW_3_0_8, NVRAM_FW_3_0_9⟩,
    some ⟨NVRAM_FW_3_0_9, NVRAM_FW_3_0_8⟩⟩,
  ⟨.ofString "3.0.10", NVRAM_FW_3_0_10, some ⟨NVRAM_FW_3_0_9, NVRAM_FW_3_0_10⟩,
    some ⟨NVRAM_FW_3_0_10, NVRAM_FW_3_0_9⟩⟩,
  ⟨.ofString "3.0.11", NVRAM_FW_3_0_11, some ⟨NVRAM_FW_3_0_10, NVRAM_FW_3_0_11⟩,
    some ⟨NVRAM_FW_3_0_11, NVRAM_FW_3_0_10⟩⟩,
  ⟨.ofString "3.0.12", NVRAM_FW_3_0_12, some ⟨NVRAM_FW_3_0_11, NVRAM_FW_3_0_12⟩,
    some ⟨NVRAM_FW_3_0_12, NVRAM_FW_3_0_11⟩⟩,
  ⟨.ofString "3.0.13", NVRAM_FW_3_0_13, some ⟨NVRAM_FW_3_0_12, NVRAM_FW_3_0_13⟩,
    some ⟨NVRAM_FW_3_0_13, NVRAM_FW_3_0_12⟩⟩,
  ⟨.ofString "3.0.14", NVRAM_FW_3_0_14, some ⟨NVRAM_FW_3_0_13, NVRAM_FW_3_0_14⟩,
    some ⟨NVRAM_FW_3_0_14, NVRAM_FW_3_0_13⟩⟩,
  ⟨.ofString "3.0.15", NVRAM_FW_3_0_15, some ⟨NVRAM_FW_3_0_14, NVRAM_FW_3_0_15⟩,
    some ⟨NVRAM_FW_3_0_15, NVRAM_FW_3_0_14⟩⟩,
  ⟨.ofString "3.0.16", NVRAM_FW_3_0_16, some ⟨NVRAM_FW_3_0_15, NVRAM_FW_3_0_16⟩,
    some ⟨NVRAM_FW_3_0_16, NVRAM_FW_3_0_15⟩⟩,
  ⟨.ofString "3.0.17", NVRAM_FW_3_0_17, some ⟨NVRAM_FW_3_0_16, NVRAM_FW_3_0_17⟩,
    some ⟨NVRAM_FW_3_0_17, NVRAM_FW_3_0_16⟩⟩,
  ⟨.ofString "3.0.18", NVRAM_FW_3_0_18, some ⟨NVRAM_FW_3_0_17, NVRAM_FW_3_0_18⟩,
    some ⟨NVRAM_FW_3_0_18, NVRAM_FW_3_0_17⟩⟩,
  ⟨.ofString "3.0.19", NVRAM_FW_3_0_19, some ⟨NVRAM_FW_3_0_18, NVRAM_FW_3_0_19⟩,
    some ⟨NVRAM_FW_3_0_19, NVRAM_FW_3_0_18⟩⟩,
  ⟨.ofString "3.0.20", NVRAM_FW_3_0_20, some ⟨NVRAM_FW_3_0_19, NVRAM_FW_3_0_20⟩,
    some ⟨NVRAM_FW_3_0_20, NVRAM_FW_3_0_19⟩⟩,
  ⟨.ofString "3.1.0", NVRAM_FW_3_1_0, some ⟨NVRAM_FW_3_0_20, NVRAM_FW_3_1_0⟩,
    some ⟨NVRAM_FW_3_1_0, NVRAM_FW_3_0_20⟩⟩,
  ⟨.ofString "3.1.1", NVRAM_FW_3_1_1, some ⟨NVRAM_FW_3_1_0, NVRAM_FW_3_1_1⟩,
    some ⟨NVRAM_FW_3_1_1, NVRAM_FW_3_1_0⟩⟩,
  ⟨.ofString "3.1.2", NVRAM_FW_3_1_2, some ⟨NVRAM_FW_3_1_1, NVRAM_FW_3_1_2⟩,
    some ⟨NVRAM_FW_3_1_2, NVRAM_FW_3_1_1⟩⟩,
  ⟨.ofString "3.1.3", NVRAM_FW_3_1_3, some ⟨NVRAM_FW_3_1_2, NVRAM_FW_3_1_3⟩,
    some ⟨NVRAM_FW_3_1_3, NVRAM_FW_3_1_2⟩⟩,
  ⟨.ofString "3.1.4", NVRAM_FW_3_1_4, some ⟨NVRAM_FW_3_1_3, NVRAM_FW_3_1_4⟩,
    some ⟨NVRAM_FW_3_1_4, NVRAM_FW_3_1_3⟩⟩,
  ⟨.ofString "3.1.5", NVRAM_FW_3_1_5, some ⟨NVRAM_FW_3_1_4, NVRAM_FW_3_1_5⟩,
    some ⟨NVRAM_FW_3_1_5, NVRAM_FW_3_1_4⟩⟩,
  ⟨.ofString "3.1.6", NVRAM_FW_3_1_6, some ⟨NVRAM_FW_3_1_5, NVRAM_FW_3_1_6⟩,
    some ⟨NVRAM_FW_3_1_6, NVRAM_FW_3_1_5⟩⟩,
  ⟨.ofString "3.1.7", NVRAM_FW_3_1_7, some ⟨NVRAM_FW_3_1_6, NVRAM_FW_3_1_7⟩,
    some ⟨NVRAM_FW_3_1_7, NVRAM_FW_3_1_6⟩⟩,
  ⟨.ofString "3.1.8", NVRAM_FW_3_1_8, some ⟨NVRAM_FW_3_1_7, NVRAM_FW_3_1_8⟩,
    some ⟨NVRAM_FW_3_1_8, NVRAM_FW_3_1_7⟩⟩,
  ⟨.ofString "3.1.9", NVRAM_FW_3_1_9, some ⟨NVRAM_FW_3_1_8, NVRAM_FW_3_1_9⟩,
    some ⟨NVRAM_FW_3_1_9, NVRAM_FW_3_1_8⟩⟩,
  ⟨.ofString "3.1.10", NVRAM_FW_3_1_10, some ⟨NVRAM_FW_3_1_9, NVRAM_FW_3_1_10⟩,
    some ⟨NVRAM_FW_3_1_10, NVRAM_FW_3_1_9⟩⟩,
  ⟨.ofString "3.2.0", NVRAM_FW_3_2_0, some ⟨NVRAM_FW_3_1_9, NVRAM_FW_3_2_0⟩,
    some ⟨NVRAM_FW_3_2_0, NVRAM_FW_3_1_9⟩⟩,
  ⟨.ofString "3.2.1", NVRAM_FW_3_2_1, some ⟨NVRAM_FW_3_2_0, NVRAM_FW_3_2_1⟩,
    some ⟨NVRAM_FW_3_2_1, NVRAM_FW_3_2_0⟩⟩,
  ⟨.ofString "3.2.2", NVRAM_FW_3_2_2, some ⟨NVRAM_FW_3_2_1, NVRAM_FW_3_2_2⟩,
    some ⟨NVRAM_FW_3_2_2, NVRAM_FW_3_2_1⟩⟩]

end EzpFirmware.UserNvram
