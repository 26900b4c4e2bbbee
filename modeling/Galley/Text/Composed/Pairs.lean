import Galley.Text.Table

/-!
Canonical mappings of version 15 of the character standard, and the classes of combining marks.
-/

namespace Galley.Text

/-- Runs of marks from how far each starts after the last one, how far it goes and its class. -/
def spacedMarks (last : Nat) : List Nat → List (Nat × Nat × Nat)
  | gap :: span :: kind :: rest => (last + gap, last + gap + span, kind) :: spacedMarks (last + gap + span) rest
  | _ => []

/--
The characters of runs and their two parts. A run is a zero, how far it starts after the last one, and the parts of
each character, the second one counted from the first combining mark.
-/
def pairRuns (whole : Nat) : List Nat → List (Nat × Nat × Nat)
  | 0 :: gap :: rest => pairRuns (whole + gap) rest
  | a :: b :: rest => (whole, a, 0x300 + b) :: pairRuns (whole + 1) rest
  | _ => []

/-- The characters of runs that have one part each. The second part is zero. -/
def singleRuns (whole : Nat) : List Nat → List (Nat × Nat × Nat)
  | 0 :: gap :: rest => singleRuns (whole + gap) rest
  | a :: rest => (whole, a, 0) :: singleRuns (whole + 1) rest
  | [] => []

/-- Characters that are composed of two others. -/
def composedLines : List String :=
  ["0 c0 41 0 41 1 41 2 41 3 41 8 41 a 0 1 43 27 45 0 45 1 45 2 45 8 49 0 49 1 49 2 49 8 0 1 4e 3 4f 0 4f 1 4f 2 4f 3",
   "4f 8 0 2 55 0 55 1 55 2 55 8 59 1 0 2 61 0 61 1 61 2 61 3 61 8 61 a 0 1 63 27 65 0 65 1 65 2 65 8 69 0 69 1 69 2",
   "69 8 0 1 6e 3 6f 0 6f 1 6f 2 6f 3 6f 8 0 2 75 0 75 1 75 2 75 8 79 1 0 1 79 8 41 4 61 4 41 6 61 6 41 28 61 28 43 1",
   "63 1 43 2 63 2 43 7 63 7 43 c 63 c 44 c 64 c 0 2 45 4 65 4 45 6 65 6 45 7 65 7 45 28 65 28 45 c 65 c 47 2 67 2 47",
   "6 67 6 47 7 67 7 47 27 67 27 48 2 68 2 0 2 49 3 69 3 49 4 69 4 49 6 69 6 49 28 69 28 49 7 0 3 4a 2 6a 2 4b 27 6b",
   "27 0 1 4c 1 6c 1 4c 27 6c 27 4c c 6c c 0 4 4e 1 6e 1 4e 27 6e 27 4e c 6e c 0 3 4f 4 6f 4 4f 6 6f 6 4f b 6f b 0 2",
   "52 1 72 1 52 27 72 27 52 c 72 c 53 1 73 1 53 2 73 2 53 27 73 27 53 c 73 c 54 27 74 27 54 c 74 c 0 2 55 3 75 3 55",
   "4 75 4 55 6 75 6 55 a 75 a 55 b 75 b 55 28 75 28 57 2 77 2 59 2 79 2 59 8 5a 1 7a 1 5a 7 7a 7 5a c 7a c 0 21 4f",
   "1b 6f 1b 0 d 55 1b 75 1b 0 1c 41 c 61 c 49 c 69 c 4f c 6f c 55 c 75 c dc 4 fc 4 dc 1 fc 1 dc c fc c dc 0 fc 0 0 1",
   "c4 4 e4 4 226 4 227 4 c6 4 e6 4 0 2 47 c 67 c 4b c 6b c 4f 28 6f 28 1ea 4 1eb 4 1b7 c 292 c 6a c 0 3 47 1 67 1 0",
   "2 4e 0 6e 0 c5 1 e5 1 c6 1 e6 1 d8 1 f8 1 41 f 61 f 41 11 61 11 45 f 65 f 45 11 65 11 49 f 69 f 49 11 69 11 4f f",
   "6f f 4f 11 6f 11 52 f 72 f 52 11 72 11 55 f 75 f 55 11 75 11 53 26 73 26 54 26 74 26 0 2 48 c 68 c 0 6 41 7 61 7",
   "45 27 65 27 d6 4 f6 4 d5 4 f5 4 4f 7 6f 7 22e 4 22f 4 59 4 79 4 0 151 a8 1 391 1 0 1 395 1 397 1 399 1 0 1 39f 1",
   "0 1 3a5 1 3a9 1 3ca 1 0 19 399 8 3a5 8 3b1 1 3b5 1 3b7 1 3b9 1 3cb 1 0 19 3b9 8 3c5 8 3bf 1 3c5 1 3c9 1 0 4 3d2 1",
   "3d2 8 0 2b 415 0 415 8 0 1 413 1 0 3 406 8 0 4 41a 1 418 0 423 6 0 a 418 6 0 1f 438 6 0 16 435 0 435 8 0 1 433 1",
   "0 3 456 8 0 4 43a 1 438 0 443 6 0 17 474 f 475 f 0 49 416 6 436 6 0 d 410 6 430 6 410 8 430 8 0 2 415 6 435 6 0 2",
   "4d8 8 4d9 8 416 8 436 8 417 8 437 8 0 2 418 4 438 4 418 8 438 8 41e 8 43e 8 0 2 4e8 8 4e9 8 42d 8 44d 8 423 4 443",
   "4 423 8 443 8 423 b 443 b 427 8 447 8 0 2 42b 8 44b 8 0 128 627 353 627 354 648 354 627 355 64a 354 0 99 6d5 354",
   "0 1 6c1 354 0 10 6d2 354 0 255 928 63c 0 7 930 63c 0 2 933 63c 0 96 9c7 6be 9c7 6d7 0 17b b47 856 0 2 b47 83e b47",
   "857 0 47 b92 8d7 0 35 bc6 8be bc7 8be bc6 8d7 0 7b c46 956 0 77 cbf 9d5 0 6 cc6 9d5 cc6 9d6 0 1 cc6 9c2 cca 9d5 0",
   "7e d46 a3e d47 a3e d46 a57 0 8d dd9 aca 0 1 dd9 acf ddc aca dd9 adf 0 247 1025 d2e 0 adf 1b05 1835 0 1 1b07 1835",
   "0 1 1b09 1835 0 1 1b0b 1835 0 1 1b0d 1835 0 3 1b11 1835 0 28 1b3a 1835 0 1 1b3c 1835 0 2 1b3e 1835 1b3f 1835 0 1",
   "1b42 1835 0 2bc 41 25 61 25 42 7 62 7 42 23 62 23 42 31 62 31 c7 1 e7 1 44 7 64 7 44 23 64 23 44 31 64 31 44 27",
   "64 27 44 2d 64 2d 112 0 113 0 112 1 113 1 45 2d 65 2d 45 30 65 30 228 6 229 6 46 7 66 7 47 4 67 4 48 7 68 7 48 23",
   "68 23 48 8 68 8 48 27 68 27 48 2e 68 2e 49 30 69 30 cf 1 ef 1 4b 1 6b 1 4b 23 6b 23 4b 31 6b 31 4c 23 6c 23 1e36",
   "4 1e37 4 4c 31 6c 31 4c 2d 6c 2d 4d 1 6d 1 4d 7 6d 7 4d 23 6d 23 4e 7 6e 7 4e 23 6e 23 4e 31 6e 31 4e 2d 6e 2d d5",
   "1 f5 1 d5 8 f5 8 14c 0 14d 0 14c 1 14d 1 50 1 70 1 50 7 70 7 52 7 72 7 52 23 72 23 1e5a 4 1e5b 4 52 31 72 31 53 7",
   "73 7 53 23 73 23 15a 7 15b 7 160 7 161 7 1e62 7 1e63 7 54 7 74 7 54 23 74 23 54 31 74 31 54 2d 74 2d 55 24 75 24",
   "55 30 75 30 55 2d 75 2d 168 1 169 1 16a 8 16b 8 56 3 76 3 56 23 76 23 57 0 77 0 57 1 77 1 57 8 77 8 57 7 77 7 57",
   "23 77 23 58 7 78 7 58 8 78 8 59 7 79 7 5a 2 7a 2 5a 23 7a 23 5a 31 7a 31 68 31 74 8 77 a 79 a 0 1 17f 7 0 4 41 23",
   "61 23 41 9 61 9 c2 1 e2 1 c2 0 e2 0 c2 9 e2 9 c2 3 e2 3 1ea0 2 1ea1 2 102 1 103 1 102 0 103 0 102 9 103 9 102 3",
   "103 3 1ea0 6 1ea1 6 45 23 65 23 45 9 65 9 45 3 65 3 ca 1 ea 1 ca 0 ea 0 ca 9 ea 9 ca 3 ea 3 1eb8 2 1eb9 2 49 9 69",
   "9 49 23 69 23 4f 23 6f 23 4f 9 6f 9 d4 1 f4 1 d4 0 f4 0 d4 9 f4 9 d4 3 f4 3 1ecc 2 1ecd 2 1a0 1 1a1 1 1a0 0 1a1 0",
   "1a0 9 1a1 9 1a0 3 1a1 3 1a0 23 1a1 23 55 23 75 23 55 9 75 9 1af 1 1b0 1 1af 0 1b0 0 1af 9 1b0 9 1af 3 1b0 3 1af",
   "23 1b0 23 59 0 79 0 59 23 79 23 59 9 79 9 59 3 79 3 0 6 3b1 13 3b1 14 1f00 0 1f01 0 1f00 1 1f01 1 1f00 42 1f01 42",
   "391 13 391 14 1f08 0 1f09 0 1f08 1 1f09 1 1f08 42 1f09 42 3b5 13 3b5 14 1f10 0 1f11 0 1f10 1 1f11 1 0 2 395 13",
   "395 14 1f18 0 1f19 0 1f18 1 1f19 1 0 2 3b7 13 3b7 14 1f20 0 1f21 0 1f20 1 1f21 1 1f20 42 1f21 42 397 13 397 14",
   "1f28 0 1f29 0 1f28 1 1f29 1 1f28 42 1f29 42 3b9 13 3b9 14 1f30 0 1f31 0 1f30 1 1f31 1 1f30 42 1f31 42 399 13 399",
   "14 1f38 0 1f39 0 1f38 1 1f39 1 1f38 42 1f39 42 3bf 13 3bf 14 1f40 0 1f41 0 1f40 1 1f41 1 0 2 39f 13 39f 14 1f48 0",
   "1f49 0 1f48 1 1f49 1 0 2 3c5 13 3c5 14 1f50 0 1f51 0 1f50 1 1f51 1 1f50 42 1f51 42 0 1 3a5 14 0 1 1f59 0 0 1 1f59",
   "1 0 1 1f59 42 3c9 13 3c9 14 1f60 0 1f61 0 1f60 1 1f61 1 1f60 42 1f61 42 3a9 13 3a9 14 1f68 0 1f69 0 1f68 1 1f69 1",
   "1f68 42 1f69 42 3b1 0 0 1 3b5 0 0 1 3b7 0 0 1 3b9 0 0 1 3bf 0 0 1 3c5 0 0 1 3c9 0 0 3 1f00 45 1f01 45 1f02 45",
   "1f03 45 1f04 45 1f05 45 1f06 45 1f07 45 1f08 45 1f09 45 1f0a 45 1f0b 45 1f0c 45 1f0d 45 1f0e 45 1f0f 45 1f20 45",
   "1f21 45 1f22 45 1f23 45 1f24 45 1f25 45 1f26 45 1f27 45 1f28 45 1f29 45 1f2a 45 1f2b 45 1f2c 45 1f2d 45 1f2e 45",
   "1f2f 45 1f60 45 1f61 45 1f62 45 1f63 45 1f64 45 1f65 45 1f66 45 1f67 45 1f68 45 1f69 45 1f6a 45 1f6b 45 1f6c 45",
   "1f6d 45 1f6e 45 1f6f 45 3b1 6 3b1 4 1f70 45 3b1 45 3ac 45 0 1 3b1 42 1fb6 45 391 6 391 4 391 0 0 1 391 45 0 4 a8",
   "42 1f74 45 3b7 45 3ae 45 0 1 3b7 42 1fc6 45 395 0 0 1 397 0 0 1 397 45 1fbf 0 1fbf 1 1fbf 42 3b9 6 3b9 4 3ca 0 0",
   "3 3b9 42 3ca 42 399 6 399 4 399 0 0 2 1ffe 0 1ffe 1 1ffe 42 3c5 6 3c5 4 3cb 0 0 1 3c1 13 3c1 14 3c5 42 3cb 42 3a5",
   "6 3a5 4 3a5 0 0 1 3a1 14 a8 0 0 4 1f7c 45 3c9 45 3ce 45 0 1 3c9 42 1ff6 45 39f 0 0 1 3a9 0 0 1 3a9 45 0 19d 2190",
   "38 2192 38 0 12 2194 38 0 1e 21d0 38 21d4 38 21d2 38 0 34 2203 38 0 4 2208 38 0 2 220b 38 0 17 2223 38 0 1 2225",
   "38 0 1a 223c 38 0 2 2243 38 0 2 2245 38 0 1 2248 38 0 16 3d 38 0 1 2261 38 0 a 224d 38 3c 38 3e 38 2264 38 2265",
   "38 0 2 2272 38 2273 38 0 2 2276 38 2277 38 0 6 227a 38 227b 38 0 2 2282 38 2283 38 0 2 2286 38 2287 38 0 22 22a2",
   "38 22a8 38 22a9 38 22ab 38 0 30 227c 38 227d 38 2291 38 2292 38 0 6 22b2 38 22b3 38 22b4 38 22b5 38 0 d5e 304b",
   "2d99 0 1 304d 2d99 0 1 304f 2d99 0 1 3051 2d99 0 1 3053 2d99 0 1 3055 2d99 0 1 3057 2d99 0 1 3059 2d99 0 1 305b",
   "2d99 0 1 305d 2d99 0 1 305f 2d99 0 1 3061 2d99 0 2 3064 2d99 0 1 3066 2d99 0 1 3068 2d99 0 6 306f 2d99 306f 2d9a",
   "0 1 3072 2d99 3072 2d9a 0 1 3075 2d99 3075 2d9a 0 1 3078 2d99 3078 2d9a 0 1 307b 2d99 307b 2d9a 0 16 3046 2d99 0",
   "9 309d 2d99 0 d 30ab 2d99 0 1 30ad 2d99 0 1 30af 2d99 0 1 30b1 2d99 0 1 30b3 2d99 0 1 30b5 2d99 0 1 30b7 2d99 0 1",
   "30b9 2d99 0 1 30bb 2d99 0 1 30bd 2d99 0 1 30bf 2d99 0 1 30c1 2d99 0 2 30c4 2d99 0 1 30c6 2d99 0 1 30c8 2d99 0 6",
   "30cf 2d99 30cf 2d9a 0 1 30d2 2d99 30d2 2d9a 0 1 30d5 2d99 30d5 2d9a 0 1 30d8 2d99 30d8 2d9a 0 1 30db 2d99 30db",
   "2d9a 0 16 30a6 2d99 0 2 30ef 2d99 30f0 2d99 30f1 2d99 30f2 2d99 0 3 30fd 2d99 0 df9b 11099 10dba 0 1 1109b 10dba",
   "0 e 110a5 10dba 0 82 11131 10e27 11132 10e27 0 21b 11347 1103e 11347 11057 0 16e 114b9 111ba 114b9 111b0 0 1",
   "114b9 111bd 0 fb 115b8 112af 115b9 112af 0 37c 11935 11630"]

/-- Characters that are taken apart in two, but never put together again. -/
def splitLines : List String :=
  ["0 344 308 1 0 613 915 63c 916 63c 917 63c 91c 63c 921 63c 922 63c 92b 63c 92f 63c 0 7c 9a1 6bc 9a2 6bc 0 1 9af",
   "6bc 0 53 a32 73c 0 2 a38 73c 0 22 a16 73c a17 73c a1c 73c 0 2 a2b 73c 0 fd b21 83c b22 83c 0 3e5 f42 cb7 0 9 f4c",
   "cb7 0 4 f51 cb7 0 4 f56 cb7 0 4 f5b cb7 0 c f40 cb5 0 9 f71 c72 0 1 f71 c74 fb2 c80 0 1 fb3 c80 0 8 f71 c80 0 11",
   "f92 cb7 0 9 f9c cb7 0 4 fa1 cb7 0 4 fa6 cb7 0 4 fab cb7 0 c f90 cb5 0 1b22 2add 38 0 d040 5d9 2b4 0 1 5f2 2b7 0 a",
   "5e9 2c1 5e9 2c2 fb49 2c1 fb49 2c2 5d0 2b7 5d0 2b8 5d0 2bc 5d1 2bc 5d2 2bc 5d3 2bc 5d4 2bc 5d5 2bc 5d6 2bc 0 1 5d8",
   "2bc 5d9 2bc 5da 2bc 5db 2bc 5dc 2bc 0 1 5de 2bc 0 1 5e0 2bc 5e1 2bc 0 1 5e3 2bc 5e4 2bc 0 1 5e6 2bc 5e7 2bc 5e8",
   "2bc 5e9 2bc 5ea 2bc 5d5 2b9 5d1 2bf 5db 2bf 5e4 2bf 0 d60f 1d157 1ce65 1d158 1ce65 1d15f 1ce6e 1d15f 1ce6f 1d15f",
   "1ce70 1d15f 1ce71 1d15f 1ce72 0 56 1d1b9 1ce65 1d1ba 1ce65 1d1bb 1ce6e 1d1bc 1ce6e 1d1bb 1ce6f 1d1bc 1ce6f"]

/-- Characters that stand for another one. -/
def singleLines : List String :=
  ["0 340 300 301 0 1 313 0 30 2b9 0 9 3b 0 8 b7 0 1be9 3ac 0 1 3ad 0 1 3ae 0 1 3af 0 1 3cc 0 1 3cd 0 1 3ce 0 3d 386",
   "0 2 3b9 0 a 388 0 1 389 0 7 390 0 7 38a 0 7 3b0 0 7 38e 0 2 385 60 0 9 38c 0 1 38f 0 1 b4 0 2 2002 2003 0 124 3a9",
   "0 3 4b c5 0 1fd 3008 3009 0 d5d5 8c48 66f4 8eca 8cc8 6ed1 4e32 53e5 9f9c 9f9c 5951 91d1 5587 5948 61f6 7669 7f85",
   "863f 87ba 88f8 908f 6a02 6d1b 70d9 73de 843d 916a 99f1 4e82 5375 6b04 721b 862d 9e1e 5d50 6feb 85cd 8964 62c9",
   "81d8 881f 5eca 6717 6d6a 72fc 90ce 4f86 51b7 52de 64c4 6ad3 7210 76e7 8001 8606 865c 8def 9732 9b6f 9dfa 788c",
   "797f 7da0 83c9 9304 9e7f 8ad6 58df 5f04 7c60 807e 7262 78ca 8cc2 96f7 58d8 5c62 6a13 6dda 6f0f 7d2f 7e37 964b",
   "52d2 808b 51dc 51cc 7a1c 7dbe 83f1 9675 8b80 62cf 6a02 8afe 4e39 5be7 6012 7387 7570 5317 78fb 4fbf 5fa9 4e0d",
   "6ccc 6578 7d22 53c3 585e 7701 8449 8aaa 6bba 8fb0 6c88 62fe 82e5 63a0 7565 4eae 5169 51c9 6881 7ce7 826f 8ad2",
   "91cf 52f5 5442 5973 5eec 65c5 6ffe 792a 95ad 9a6a 9e97 9ece 529b 66c6 6b77 8f62 5e74 6190 6200 649a 6f23 7149",
   "7489 79ca 7df4 806f 8f26 84ee 9023 934a 5217 52a3 54bd 70c8 88c2 8aaa 5ec9 5ff5 637b 6bae 7c3e 7375 4ee4 56f9",
   "5be7 5dba 601c 73b2 7469 7f9a 8046 9234 96f6 9748 9818 4f8b 79ae 91b4 96b8 60e1 4e86 50da 5bee 5c3f 6599 6a02",
   "71ce 7642 84fc 907c 9f8d 6688 962e 5289 677b 67f3 6d41 6e9c 7409 7559 786b 7d10 985e 516d 622e 9678 502b 5d19",
   "6dea 8f2a 5f8b 6144 6817 7387 9686 5229 540f 5c65 6613 674e 68a8 6ce5 7406 75e2 7f79 88cf 88e1 91cc 96e2 533f",
   "6eba 541d 71d0 7498 85fa 96a3 9c57 9e9f 6797 6dcb 81e8 7acb 7b20 7c92 72c0 7099 8b58 4ec0 8336 523a 5207 5ea6",
   "62d3 7cd6 5b85 6d1e 66b4 8f3b 884c 964d 898b 5ed3 5140 55c0 0 2 585a 0 1 6674 0 2 51de 732a 76ca 793c 795e 7965",
   "798f 9756 7cbe 7fbd 0 1 8612 0 1 8af8 0 2 9038 90fd 0 3 98ef 98fc 9928 9db4 90de 96b7 4fae 50e7 514d 52c9 52e4",
   "5351 559d 5606 5668 5840 58a8 5c64 5c6e 6094 6168 618e 61f2 654f 65e2 6691 6885 6d77 6e1a 6f22 716e 722b 7422",
   "7891 793e 7949 7948 7950 7956 795d 798d 798e 7a40 7a81 7bc0 7df4 7e09 7e41 7f72 8005 81ed 8279 8279 8457 8910",
   "8996 8b01 8b39 8cd3 8d08 8fb6 9038 96e3 97ff 983b 6075 242ee 8218 0 2 4e26 51b5 5168 4f80 5145 5180 52c7 52fa",
   "559d 5555 5599 55e2 585a 58b3 5944 5954 5a62 5b28 5ed2 5ed9 5f69 5fad 60d8 614e 6108 618e 6160 61f2 6234 63c4",
   "641c 6452 6556 6674 6717 671b 6756 6b79 6bba 6d41 6edb 6ecb 6f22 701e 716e 77a7 7235 72af 732a 7471 7506 753b",
   "761d 761f 76ca 76db 76f4 774a 7740 78cc 7ab1 7bc0 7c7b 7d5b 7df4 7f3e 8005 8352 83ef 8779 8941 8986 8996 8abf",
   "8af8 8acb 8b01 8afe 8aed 8b39 8b8a 8d08 8f38 9072 9199 9276 967c 96e3 9756 97db 97ff 980b 983b 9b12 9f9c 2284a",
   "22844 233d5 3b9d 4018 4039 25249 25cd0 27ed3 9f43 9f8e 0 1fd26 4e3d 4e38 4e41 20122 4f60 4fae 4fbb 5002 507a 5099",
   "50e7 50cf 349e 2063a 514d 5154 5164 5177 2051c 34b9 5167 518d 2054b 5197 51a4 4ecc 51ac 51b5 291df 51f5 5203 34df",
   "523b 5246 5272 5277 3515 52c7 52c9 52e4 52fa 5305 5306 5317 5349 5351 535a 5373 537d 537f 537f 537f 20a2c 7070",
   "53ca 53df 20b63 53eb 53f1 5406 549e 5438 5448 5468 54a2 54f6 5510 5553 5563 5584 5584 5599 55ab 55b3 55c2 5716",
   "5606 5717 5651 5674 5207 58ee 57ce 57f4 580d 578b 5832 5831 58ac 214e4 58f2 58f7 5906 591a 5922 5962 216a8 216ea",
   "59ec 5a1b 5a27 59d8 5a66 36ee 36fc 5b08 5b3e 5b3e 219c8 5bc3 5bd8 5be7 5bf3 21b18 5bff 5c06 5f53 5c22 3781 5c60",
   "5c6e 5cc0 5c8d 21de4 5d43 21de6 5d6e 5d6b 5d7c 5de1 5de2 382f 5dfd 5e28 5e3d 5e69 3862 22183 387c 5eb0 5eb3 5eb6",
   "5eca 2a392 5efe 22331 22331 8201 5f22 5f22 38c7 232b8 261da 5f62 5f6b 38e3 5f9a 5fcd 5fd7 5ff9 6081 393a 391c",
   "6094 226d4 60c7 6148 614c 614e 614c 617a 618e 61b2 61a4 61af 61de 61f2 61f6 6210 621b 625d 62b1 62d4 6350 22b0c",
   "633d 62fc 6368 6383 63e4 22bf1 6422 63c5 63a9 3a2e 6469 647e 649d 6477 3a6c 654f 656c 2300a 65e3 66f8 6649 3b19",
   "6691 3b08 3ae4 5192 5195 6700 669c 80ad 43d9 6717 671b 6721 675e 6753 233c3 3b49 67fa 6785 6852 6885 2346d 688e",
   "681f 6914 3b9d 6942 69a3 69ea 6aa8 236a3 6adb 3c18 6b21 238a7 6b54 3c4e 6b72 6b9f 6bba 6bbb 23a8d 21d0b 23afa",
   "6c4e 23cbc 6cbf 6ccd 6c67 6d16 6d3e 6d77 6d41 6d69 6d78 6d85 23d1e 6d34 6e2f 6e6e 3d33 6ecb 6ec7 23ed1 6df9 6f6e",
   "23f5e 23f8e 6fc6 7039 701e 701b 3d96 704a 707d 7077 70ad 20525 7145 24263 719c 243ab 7228 7235 7250 24608 7280",
   "7295 24735 24814 737a 738b 3eac 73a5 3eb8 3eb8 7447 745c 7471 7485 74ca 3f1b 7524 24c36 753e 24c92 7570 2219f",
   "7610 24fa1 24fb8 25044 3ffc 4008 76f4 250f3 250f2 25119 25133 771e 771f 771f 774a 4039 778b 4046 4096 2541d 784e",
   "788c 78cc 40e3 25626 7956 2569a 256c5 798f 79eb 412f 7a40 7a4a 7a4f 2597c 25aa7 25aa7 7aee 4202 25bab 7bc6 7bc9",
   "4227 25c80 7cd2 42a0 7ce8 7ce3 7d00 25f86 7d63 4301 7dc7 7e02 7e45 4334 26228 26247 4359 262d9 7f7a 2633e 7f95",
   "7ffa 8005 264da 26523 8060 265a8 8070 2335f 43d5 80b2 8103 440b 813e 5ab5 267a7 267b5 23393 2339c 8201 8204 8f9e",
   "446b 8291 828b 829d 52b3 82b1 82b3 82bd 82e6 26b3c 82e5 831d 8363 83ad 8323 83bd 83e7 8457 8353 83ca 83cc 83dc",
   "26c36 26d6b 26cd5 452b 84f1 84f3 8516 273ca 8564 26f2c 455d 4561 26fb1 270d2 456b 8650 865c 8667 8669 86a9 8688",
   "870e 86e2 8779 8728 876b 8786 45d7 87e1 8801 45f9 8860 8863 27667 88d7 88de 4635 88fa 34bb 278ae 27966 46be 46c7",
   "8aa0 8aed 8b8a 8c55 27ca8 8cab 8cc1 8d1b 8d77 27f2f 20804 8dcb 8dbc 8df0 208de 8ed4 8f38 285d2 285ed 9094 90f1",
   "9111 2872e 911b 9238 92d7 92d8 927c 93f9 9415 28bfa 958b 4995 95b7 28d77 49e6 96c3 5db2 9723 29145 2921a 4a6e",
   "4a76 97e0 2940a 4ab2 29496 980b 980b 9829 295b6 98e2 4b33 9929 99a7 99c2 99fe 4bce 29b30 9b12 9c40 9cfd 4cce 4ced",
   "9d67 2a0ce 4cf8 2a105 2a20e 2a291 9ebb 4d56 9ef9 9efe 9f05 9f0f 9f16 9f3b 2a600"]

/-- The first and last characters of a run of marks, and their class. -/
def markLines : List String :=
  ["300 14 e6 1 0 e8 1 3 dc 1 0 e8 1 0 d8 1 4 dc 1 1 ca 1 3 dc 1 1 ca 1 a dc 1 4 1 1 3 dc 1 7 e6 1 0 f0 1 0 e6 1 2 dc",
   "1 2 e6 1 1 dc 2 2 e6 1 3 dc 1 0 e6 1 0 e8 1 1 dc 1 0 e6 1 0 e9 1 1 ea 1 0 e9 1 1 ea 1 0 e9 1 c e6 114 4 e6 10a 0",
   "dc 1 3 e6 1 0 dc 1 2 e6 1 0 de 1 0 dc 1 5 e6 1 5 dc 1 1 e6 1 0 dc 1 1 e6 1 0 de 1 0 e4 1 0 e6 1 0 a 1 0 b 1 0 c 1",
   "0 d 1 0 e 1 0 f 1 0 10 1 0 11 1 0 12 1 1 13 1 0 14 1 0 15 1 0 16 2 0 17 2 0 18 1 0 19 2 0 e6 1 0 dc 2 0 12 49 7",
   "e6 1 0 1e 1 0 1f 1 0 20 31 0 1b 1 0 1c 1 0 1d 1 0 1e 1 0 1f 1 0 20 1 0 21 1 0 22 1 1 e6 1 1 dc 1 4 e6 1 0 dc 1 1",
   "e6 1 0 dc 11 0 23 66 6 e6 3 3 e6 1 0 dc 1 0 e6 3 1 e6 2 0 dc 1 1 e6 1 0 dc 24 0 24 1f 0 e6 1 0 dc 1 1 e6 1 0 dc 1",
   "1 e6 1 2 dc 1 0 e6 1 1 dc 1 0 e6 1 0 dc 1 2 e6 1 0 dc 1 0 e6 1 0 dc 1 0 e6 1 0 dc 1 0 e6 1 0 dc 1 1 e6 a1 6 e6 1",
   "0 dc 1 0 e6 a 0 dc 19 3 e6 2 8 e6 2 2 e6 2 4 e6 2c 2 dc 3d 0 e6 1 2 dc 1 3 e6 2b 4 e6 1 4 dc 1 d e6 2 0 dc 1 1 e6",
   "1 0 dc 1 1 e6 1 0 dc 1 2 e6 1 2 dc 1 0 1b 1 0 1c 1 0 1d 1 2 e6 1 0 dc 1 1 e6 1 1 dc 1 4 e6 3d 0 7 11 0 9 4 0 e6 1",
   "0 dc 1 1 e6 68 0 7 11 0 9 31 0 e6 3e 0 7 11 0 9 6f 0 7 11 0 9 6f 0 7 11 0 9 80 0 9 6f 0 7 11 0 9 8 0 54 1 0 5b 66",
   "0 7 11 0 9 6e 1 9 11 0 9 7d 0 9 6e 1 67 1 0 9 e 3 6b 6d 1 76 1 0 9 e 3 7a 4d 1 dc 1c 0 dc 2 0 dc 2 0 d8 38 0 81 1",
   "0 82 2 0 84 6 3 82 3 0 82 2 1 e6 1 0 9 2 1 e6 3f 0 dc 71 0 7 2 1 9 53 0 dc 2d0 2 e6 3b5 1 9 1f 0 9 9e 0 9 b 0 e6",
   "cc 0 e4 90 0 de 1 0 e6 1 0 dc dc 0 e6 1 0 dc 48 0 9 15 7 e6 3 0 dc 31 4 e6 1 5 dc 1 1 e6 1 0 dc 2 1 dc 1 1 e6 1 1",
   "dc 1 4 e6 1 0 dc 1 3 e6 66 0 7 10 0 9 27 0 e6 1 0 dc 1 6 e6 37 1 9 3b 0 7 c 1 9 44 0 7 99 2 e6 2 0 1 1 4 dc 1 1",
   "e6 1 3 dc 1 0 e6 2 6 1 5 0 dc 7 0 e6 4 1 e6 c7 1 e6 1 0 dc 1 6 e6 1 0 dc 1 1 e6 1 0 ea 1 0 d6 1 0 dc 1 0 ca 1 24",
   "e6 1 0 e8 1 1 e4 1 0 dc 1 0 da 1 0 e6 1 0 e9 1 0 dc 1 0 e6 1 0 dc 2d1 1 e6 1 1 1 1 3 e6 1 2 1 1 1 e6 5 0 e6 4 1 1",
   "1 0 e6 1 0 dc 1 0 e6 1 1 1 1 3 dc 1 0 e6 bff 2 e6 8e 0 9 61 1f e6 22b 0 da 1 0 e4 1 0 e8 1 0 de 1 1 e0 6a 1 8",
   "75d5 0 e6 5 9 e6 21 1 e6 51 1 e6 115 0 9 26 0 9 98 0 9 1c 11 e6 3a 2 dc 26 0 9 60 0 7 d 0 9 f0 0 e6 2 1 e6 1 0 dc",
   "3 1 e6 6 1 e6 2 0 e6 35 0 9 f7 0 9 4f31 0 1a 302 6 e6 1 6 dc 1 1 e6 3ce 0 dc e3 0 dc 96 4 e6 693 0 dc 2 0 e6 29 0",
   "e6 1 0 1 1 0 dc 5 0 9 a6 0 e6 1 0 dc 23e 3 e6 184 1 e6 51 2 dc 47 1 dc 1 2 e6 1 0 dc 1 0 e6 1 3 dc 32 0 e6 1 0 dc",
   "1 0 e6 1 0 dc c1 0 9 2a 0 9 f 0 9 3a 0 9 1 0 7 46 2 e6 31 1 9 3f 0 7 4d 0 9 a 0 7 6b 0 9 1 0 7 b3 0 7 1 0 9 51 1",
   "7 11 0 9 19 6 e6 4 4 e6 ce 0 9 4 0 7 18 0 e6 64 0 9 1 0 7 fc 0 9 1 0 7 7f 0 9 77 0 9 1 0 7 74 0 9 10e 0 9 1 0 7",
   "103 1 9 5 0 7 9d 0 9 54 0 9 13 0 9 52 0 9 1a6 0 9 103 0 7 2 1 9 52 0 9 1aa 1 9 4bae 4 1 3c 6 e6 4ba 1 6 4cad 0 1",
   "14c7 1 d8 1 2 1 4 0 e2 1 4 d8 9 7 dc 3 4 e6 1 1 dc 1f 3 e6 95 2 e6 dbc 6 e6 2 10 e6 3 6 e6 2 1 e6 2 4 e6 65 0 e6",
   "a1 6 e6 178 0 e6 3e 3 e6 1fd 1 e8 1 0 dc 1 0 e6 3e1 6 dc 6e 5 e6 1 0 7"]

/-- Characters that are composed of two others, and these. -/
def composedPairs : List (Nat × Nat × Nat) := pairRuns 0 (tableNumbers composedLines)

/-- Characters that are only taken apart, and their parts. -/
def splitPairs : List (Nat × Nat × Nat) :=
  pairRuns 0 (tableNumbers splitLines) ++ singleRuns 0 (tableNumbers singleLines)

/-- Runs of combining marks, and their class. -/
def markRuns : List (Nat × Nat × Nat) := spacedMarks 0 (tableNumbers markLines)

end Galley.Text
